import StagedJoin.Json.Decode
import StagedJoin.Query

/-!
Qualifiers and tables in JSON.
-/
namespace StagedJoin

namespace Qualifier

def toJson (q : Qualifier) : Json := .ofString q.name

def ofJson? : Decoder Qualifier := Json.asName? ofName?

end Qualifier

namespace TableRef

def toJson (t : TableRef) : Json :=
  .ofPairs [("table", .ofOption .ofString t.table), ("schema", .ofOption .ofString t.schema)]

def ofJson? : Decoder TableRef := fun depth j => do
  let f ← Json.asFields? ["table", "schema"] true depth j
  return {
    table := ← f.optional? "table" Json.asString?
    schema := ← f.optional? "schema" Json.asString? }

end TableRef

end StagedJoin
