import StagedJoin.JoinOptions

/-!
Settings of a compiler: options beyond the core ones, and the qualifiers that a
backend supports. Settings are valid when the names of all options, core options
included, differ.
-/
namespace StagedJoin

structure Config where
  options : List OptionSpec := []
  /-- All qualifiers are supported unless a list is given. -/
  qualifiers : Option (List Qualifier) := none
  deriving DecidableEq, Repr, Inhabited

namespace Config

/-- Fails at the first option that is a core one or has been seen. -/
def checkNames (seen : List String) : List OptionSpec → Except ConfigFault Unit
  | [] => .ok ()
  | spec :: rest =>
    if JoinOptions.coreNames.contains spec.name then .error (.reservedOption spec.name)
    else if seen.contains spec.name then .error (.repeatedOption spec.name)
    else checkNames (spec.name :: seen) rest

def validate (c : Config) : Except Failure Unit :=
  (checkNames [] c.options).mapError .config

/-- The core options and those of the settings. -/
def optionTable (c : Config) : List OptionSpec := JoinOptions.coreTable ++ c.options

end Config

end StagedJoin
