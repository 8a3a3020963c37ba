import LockAudit.Proofs.CommandLine.Survey
import LockAudit.Proofs.Json.Encodable

/-! # How a session ends

The results of the files alone decide about the exit code, the reports and the JSON document of a session.
Missing and faulty files are left out, but in CI mode the first of them ends the session. A file that
cannot even be looked at, as its name is too long, ends the program itself.
-/

namespace LockAudit

/-! ### The JSON document -/

def Json.at? (value : Json) : List String → Option Json
  | [] => some value
  | name :: path =>
    match value with
    | .obj fields => (Json.field? name fields).bind fun v => v.at? path
    | _ => none

namespace CommandLine

def unitProbably? (unit : Json) : Option Int :=
  match unit.at? ["skipped"] with
  | some .null =>
    match unit.at? ["stats", "doublelock", "probably"], unit.at? ["stats", "conflictlock", "probably"] with
    | some (.int double), some (.int conflict) => some (double + conflict)
    | _, _ => none
  | some _ => some 0
  | none => none

def totalProbably? (units : List Json) : Option Int :=
  (units.mapM unitProbably?).map fun counts => counts.foldl (· + ·) 0

/-- The document has the records of the units in order, and its summary counts them and the probable
findings in them. -/
structure Describes (document : Json) (units : List UnitResult) : Prop where
  records : document.at? ["units"] = some (.arr (units.map UnitResult.record))
  files : document.at? ["analysis_summary", "total_files"] = some (.ofNat units.length)
  probably : ∃ total, totalProbably? (units.map UnitResult.record) = some total ∧
    document.at? ["analysis_summary", "total_probably"] = some (.int total)

namespace Session

def exitCode (stopped ci : Bool) (allowed : Int) (probable : Nat) : Nat :=
  if stopped then 3 else if ci && decide (allowed < Int.ofNat probable) then 1 else 0

/-- The end of a session has an exit code whenever CI mode has a threshold. -/
theorem exists_finish {s : Session} {allowed : Int}
    (h : s.arguments.ciMode = true → s.arguments.maxProbably = some allowed)
    (written : List (List String × String)) :
    ∃ outcome, s.finish written = .ok outcome ∧ outcome.written = written ∧
      outcome.exit = exitCode s.stopped s.arguments.ciMode allowed s.probable ∧
      (s.stopped = true → outcome.output = s.output) := by
  cases hs : s.stopped with
  | true =>
    refine ⟨{ exit := 3, output := s.output, notices := s.notices, written }, ?_, rfl, rfl, fun _ => rfl⟩
    simp only [finish, conclude, hs, if_true]
    rfl
  | false =>
    cases hci : s.arguments.ciMode with
    | false =>
      refine ⟨{ exit := 0, output := s.output, notices := s.notices, written }, ?_, rfl, rfl, nofun⟩
      simp only [finish, conclude, hs, hci, Bool.false_eq_true, if_false]
      rfl
    | true =>
      simp only [finish, conclude, hs, hci, judge, h hci, Bool.false_eq_true, if_false, if_true, exitCode,
        Bool.true_and, decide_eq_true_eq]
      split
      · exact ⟨_, rfl, rfl, rfl, nofun⟩
      · exact ⟨_, rfl, rfl, rfl, nofun⟩

end Session

/-! ### Writing -/

/-- A written text that stands below the working directory is found there. -/
def StandsAt (name text : String) (files : FileTree) (written : List (List String × String)) : Prop :=
  ∃ before : List (List String × String), ∃ place,
    FileTree.placeFor { entries := files.entries ++ before.map fun w => (w.1, .file w.2) } name = .ok place ∧
      ∀ parts, place = .inside parts → (parts, text) ∈ written

def Session.files (s : Session) : List (String × Nat) :=
  s.arguments.files.zipIdx

def Session.HasFault (s : Session) (files : FileTree) (timing : Timing) : Prop :=
  SomeFault (inspect s files timing) s.files

/-- How a session ends whose files were found to be as given. -/
structure Concluded (session : Session) (files : FileTree) (timing : Timing) (allowed : Int)
    (found : List Inspection) (outcome : Outcome) : Prop where
  /-- Outside of CI mode the exit code says nothing. -/
  plain : session.arguments.ciMode = false → outcome.exit = 0
  fault : session.arguments.ciMode = true → (outcome.exit = 3 ↔ session.HasFault files timing)
  /-- After a fault in CI mode there is no report, neither in the output nor in a file. -/
  silent : session.arguments.ciMode = true → session.HasFault files timing → outcome.written = [] ∧
    outcome.output =
      (found.flatMap (Inspection.progress session.arguments.quiet)).foldl (· ++ · ++ "\n") ""
  /-- All files are looked at. -/
  complete : (session.arguments.ciMode = true → ¬session.HasFault files timing) →
    session.files.mapM (inspect session files timing) = .ok found
  verdict : session.arguments.ciMode = true → ¬session.HasFault files timing → outcome.exit =
    if allowed < Int.ofNat ((found.flatMap Inspection.reports).countP Report.isProbable) then 1 else 0
  /-- The units of the document are the files without a fault. -/
  document : (session.arguments.ciMode = true → ¬session.HasFault files timing) →
    ∀ name, Session.wanted? session.arguments.json = some name → found.filterMap Inspection.unit? ≠ [] →
      ∃ document, Describes document (found.filterMap Inspection.unit?) ∧
        StandsAt name document.indented files outcome.written

section Conclusion

variable {session : Session} {files : FileTree} {timing : Timing} {found : List Inspection}

/-- The text report about the file, if there is one, can be written and, where it goes to a file, encoded. -/
structure Reportable (a : Arguments) (i : Inspection) : Prop where
  chains : HasTextChains i.reports
  whole : Session.wanted? a.output ≠ none → ∀ text, i.text? = some text → Text.isWhole text = true

end Conclusion

/-! ### Names that are too long -/

def sampleTree : FileTree where
  entries := [
    (["a"], .file ("\x7b\"unit\":\"a\",\"instances\":[\x7b\"id\":\"f\",\"body\":\x7b\"blocks\":[" ++
      "\x7b\"statements\":[\x7b\"op\":\"acquire\",\"guard\":1,\"lock\":\x7b\"static\":\"A\"\x7d\x7d," ++
      "\x7b\"op\":\"acquire\",\"guard\":2,\"lock\":\x7b\"static\":\"A\"\x7d\x7d]\x7d]\x7d\x7d]\x7d")),
    (["b"], .file "\x7b\"unit\":\"b\",\"instances\":[],\"build_script\":true\x7d"),
    (["d"], .directory)]

def sampleSession (ci : Bool) (budget : Option Number) (files : List String) : Session where
  arguments := { files, json := some "o", ciMode := ci, flags := { timeBudget := some budget } }
  level := .warning
  options := { timeBudget := budget }

/-- What stands out about the files of a session: which are faulty, the files of the units, the number of
probable findings, and whether all call chains can be written. -/
structure Sighting where
  faults : List Bool
  units : List String
  probable : Nat
  writable : Bool
  deriving DecidableEq

/-- The files of a session are found as given, and come to the sighting. -/
structure Sees (s : Session) (files : FileTree) (timing : Timing) (found : List Inspection)
    (sight : Sighting) : Prop where
  surveyed : survey (inspect s files timing) s.arguments.ciMode s.files = .ok found
  hasFault : s.HasFault files timing ↔ true ∈ sight.faults
  units : (found.filterMap Inspection.unit?).map UnitResult.file = sight.units
  probable : (found.flatMap Inspection.reports).countP Report.isProbable = sight.probable
  reportable : sight.writable = true → Session.wanted? s.arguments.output = none →
    ∀ n ∈ s.files, ∀ i, inspect s files timing n = .ok i → Reportable s.arguments i

def Documents (units : List String) (outcome : Outcome) : Prop :=
  ∃ document results, Describes document results ∧ results.map UnitResult.file = units ∧
    StandsAt "o" document.indented sampleTree outcome.written

section Sample

variable {ci : Bool} {budget : Option Number} {names : List String} {timing : Timing}
  {found : List Inspection} {sight : Sighting} {outcome : Outcome}

theorem Sees.documents (h : Sees (sampleSession ci budget names) sampleTree timing found sight)
    (hend : Concluded (sampleSession ci budget names) sampleTree timing 0 found outcome)
    (hfault : ci = true → true ∉ sight.faults) (hne : sight.units ≠ []) :
    Documents sight.units outcome := by
  obtain ⟨document, hdescribes, hstands⟩ := hend.document
    (fun hci => (not_congr h.hasFault).mpr (hfault hci)) "o" rfl fun hnil => hne (by
      rw [← h.units, hnil]
      rfl)
  exact ⟨document, _, hdescribes, h.units, hstands⟩

theorem Sees.exit (h : Sees (sampleSession true budget names) sampleTree timing found sight)
    (hend : Concluded (sampleSession true budget names) sampleTree timing 0 found outcome)
    (hfault : true ∉ sight.faults) : outcome.exit = if 0 < sight.probable then 1 else 0 := by
  rw [hend.verdict rfl ((not_congr h.hasFault).mpr hfault), h.probable]
  simp

end Sample

end CommandLine

end LockAudit
