import StagedJoin.Fragment

/-!
Diagnostics: a report together with the reports that caused it, nearest cause
first. A statement or a location given to a diagnostic reaches all its reports.
-/
namespace StagedJoin

structure Report where
  code : String
  statement : Option String := none
  message : String
  fragment : Fragment := .absent
  label : Option String := none
  help : Option String := none
  notes : List String := []
  deriving DecidableEq, Repr, Inhabited

structure Diagnostic where
  report : Report
  causes : List Report := []
  deriving DecidableEq, Repr, Inhabited

namespace Diagnostic

def reports (d : Diagnostic) : List Report := d.report :: d.causes

def code (d : Diagnostic) : String := d.report.code

def message (d : Diagnostic) : String := d.report.message

def mapReports (f : Report → Report) (d : Diagnostic) : Diagnostic :=
  ⟨f d.report, d.causes.map f⟩

def withStatement (d : Diagnostic) (statement : String) : Diagnostic :=
  d.mapReports fun r => { r with statement := some statement }

/-- Gives a place to every fragment that has none. -/
def withLocation (d : Diagnostic) (line column : Nat) : Diagnostic :=
  d.mapReports fun r => { r with fragment := r.fragment.locate line column }

/-- The fragment pointed at, if there is one. -/
def fragment? (d : Diagnostic) : Option Fragment :=
  match d.report.fragment with
  | .absent => none
  | other => some other

@[simp] theorem reports_mapReports (f : Report → Report) (d : Diagnostic) :
    (d.mapReports f).reports = d.reports.map f := rfl

end Diagnostic

end StagedJoin
