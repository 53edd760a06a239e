import StagedJoin.Json.Decode
import StagedJoin.Staged

/-!
Placeholders and staged parts in JSON.
-/
namespace StagedJoin

namespace Placeholder

def toJson : Placeholder → Json
  | .positional index => .tagged "Positional" (.ofNat index)
  | .named name => .tagged "Named" (.ofString name)

/-- Positions are below this bound. -/
def indexBound : Nat := 0x10000000000000000

def ofJson? : Decoder Placeholder := fun depth j => do
  let (name, content) ← Json.asCase? depth j
  if name = "Positional" then
    (Json.content? (Json.asNat? indexBound) content).map .positional
  else if name = "Named" then (Json.content? Json.asString? content).map .named
  else none

end Placeholder

namespace Staged

variable {α : Type}

def toJson (encode : α → Json) : Staged α → Json
  | .literal a => .tagged "Literal" (encode a)
  | .deferred p => .tagged "Deferred" p.toJson

def ofJson? (decode : Decoder α) : Decoder (Staged α) := fun depth j => do
  let (name, content) ← Json.asCase? depth j
  if name = "Literal" then (Json.content? decode content).map .literal
  else if name = "Deferred" then (Json.content? Placeholder.ofJson? content).map .deferred
  else none

end Staged

end StagedJoin
