import LockAudit.Json.Writer

/-! # Texts that can be encoded

A text without the mark of lone surrogates is one of whole characters. Whatever is written as JSON is such
a text, also where the values hold lone surrogates.
-/

namespace LockAudit

namespace Text

def Unmarked (s : String) : Prop :=
  mark ∉ s.toList

instance (s : String) : Decidable (Unmarked s) :=
  inferInstanceAs (Decidable (mark ∉ s.toList))

theorem symbols_of_not_mem {cs : List Char} (h : mark ∉ cs) : symbols cs = cs.map .char := by
  fun_induction symbols cs with
  | case1 => rfl
  | case2 c => rfl
  | case3 c d rest s hs ih =>
    have hc : c ≠ mark := fun hc => h (hc ▸ List.mem_cons_self)
    simp [hc] at hs
  | case4 c d rest hs ih =>
    rw [ih (fun hm => h (List.mem_cons_of_mem c hm))]
    rfl

theorem Unmarked.isWhole {s : String} (h : Unmarked s) : isWhole s = true := by
  simp [Text.isWhole, symbols_of_not_mem h]

theorem mem_toDigits {base n : Nat} {c : Char} (h : c ∈ Nat.toDigits base n) :
    ∃ d, c = Nat.digitChar d := by
  have hcore : ∀ fuel n ds, (∀ c ∈ ds, ∃ d, c = Nat.digitChar d) →
      ∀ c ∈ Nat.toDigitsCore base fuel n ds, ∃ d, c = Nat.digitChar d := by
    intro fuel
    induction fuel with
    | zero => exact fun n ds hds => hds
    | succ fuel ih =>
      intro n ds hds
      have hcons : ∀ c ∈ Nat.digitChar (n % base) :: ds, ∃ d, c = Nat.digitChar d :=
        List.forall_mem_cons.mpr ⟨⟨_, rfl⟩, hds⟩
      simp only [Nat.toDigitsCore]
      split
      · exact hcons
      · exact ih _ _ hcons
  exact hcore _ _ [] (by simp) c h

theorem mark_not_mem_toDigits (base n : Nat) : mark ∉ Nat.toDigits base n := by
  intro h
  obtain ⟨d, hd⟩ := mem_toDigits h
  exact Nat.digitChar_ne mark (by decide) hd.symm

@[simp] theorem unmarked_append {s t : String} : Unmarked (s ++ t) ↔ Unmarked s ∧ Unmarked t := by
  simp [Unmarked, not_or]

@[simp] theorem unmarked_push {s : String} {c : Char} : Unmarked (s.push c) ↔ Unmarked s ∧ c ≠ mark := by
  simp [Unmarked, not_or, eq_comm]

@[simp] theorem unmarked_ofList {cs : List Char} : Unmarked (String.ofList cs) ↔ mark ∉ cs := by
  rw [Unmarked, String.toList_ofList]

theorem mark_not_mem_replicate {c : Char} (h : mark ≠ c) (n : Nat) : mark ∉ List.replicate n c :=
  fun hm => h (List.eq_of_mem_replicate hm)

theorem unmarked_hex (width n : Nat) : Unmarked (hex width n) := by
  rw [hex, unmarked_ofList, List.mem_append, not_or]
  exact ⟨mark_not_mem_replicate (by decide) _, mark_not_mem_toDigits 16 n⟩

end Text

open Text

/-! ### Numbers -/

theorem unmarked_repr (i : Int) : Unmarked i.repr := by
  rw [Int.repr_eq_if]
  split
  · simp [Nat.repr_eq_ofList_toDigits, mark_not_mem_toDigits]
  · simp only [Nat.repr_eq_ofList_toDigits, unmarked_append, unmarked_ofList]
    exact ⟨by decide, mark_not_mem_toDigits 10 _⟩

namespace Binary64

theorem mark_not_mem_shortestDigits (units : Nat) : mark ∉ (shortestDigits units).1 := by
  unfold shortestDigits
  extract_lets point found
  have hfound : ∀ p, found = some p → mark ∉ p.2 := by
    intro p hp
    obtain ⟨n, _, hn⟩ := List.exists_of_findSome?_eq_some hp
    obtain ⟨d, _, rfl⟩ := Option.map_eq_some_iff.mp hn
    exact mark_not_mem_toDigits 10 d
  clear_value found
  cases found with
  | none => simp
  | some p =>
    intro h
    have hdropped := List.mem_reverse.mp h
    exact hfound p rfl (List.mem_reverse.mp ((List.dropWhile_sublist _).subset hdropped))

theorem mark_not_mem_positional {digits : List Char} (h : mark ∉ digits) (point : Int) :
    mark ∉ positional digits point := by
  have hzeros := fun n => mark_not_mem_replicate (c := '0') (by decide) n
  have htake : ∀ n, mark ∉ digits.take n := fun n hm => h (List.mem_of_mem_take hm)
  have hdrop : ∀ n, mark ∉ digits.drop n := fun n hm => h (List.mem_of_mem_drop hm)
  have hpoint : mark ≠ '.' ∧ mark ≠ '0' := by decide
  unfold positional
  split
  · simp [h, hzeros, hpoint]
  · simp only [List.mem_append, not_or, htake, hzeros]
    split
    · simp [hpoint]
    · simp [hpoint, hdrop]

theorem mark_not_mem_scientific {digits : List Char} (h : mark ∉ digits) (point : Int) :
    mark ∉ scientific digits point := by
  have hchars : mark ≠ '.' ∧ mark ≠ '0' ∧ mark ≠ 'e' ∧ mark ≠ '-' ∧ mark ≠ '+' := by decide
  have hzeros := fun n => mark_not_mem_replicate (c := '0') (by decide) n
  have hsign : mark ≠ if point - 1 < 0 then '-' else '+' := by
    split
    · exact hchars.2.2.2.1
    · exact hchars.2.2.2.2
  simp only [scientific, List.mem_append, not_or, hzeros, mark_not_mem_toDigits, not_false_eq_true, and_true]
  constructor
  · split
    · simp [hchars]
    · exact h
    · simpa [hchars] using h
  · rw [List.mem_cons, List.mem_singleton, not_or]
    exact ⟨hchars.2.2.1, hsign⟩

theorem unmarked_shortest (x : Binary64) : Unmarked x.shortest := by
  have hsign : ∀ negative, mark ∉ signText negative := by decide
  unfold shortest
  split
  · decide
  · rw [unmarked_append, unmarked_ofList]
    exact ⟨hsign _, by decide⟩
  · rw [unmarked_append, unmarked_ofList]
    exact ⟨hsign _, by decide⟩
  · rename_i units _
    have hdigits := mark_not_mem_shortestDigits units
    rw [unmarked_ofList, List.mem_append, not_or]
    refine ⟨hsign _, ?_⟩
    split
    · exact mark_not_mem_positional hdigits _
    · exact mark_not_mem_scientific hdigits _

end Binary64

namespace Json

theorem unmarked_unit (n : Nat) : Unmarked (unit n) := by
  rw [unit, unmarked_append]
  exact ⟨by decide, unmarked_hex 4 n⟩

theorem unmarked_escapedChar (c : Char) : Unmarked (escapedChar c) := by
  unfold escapedChar
  -- the characters with an escape of their own
  iterate 7
    split
    · decide
  split
  · rename_i hascii
    have hc : mark ≠ c := by
      rintro rfl
      simp [mark] at hascii
    simpa [Unmarked, Char.toString] using hc
  · split
    · exact unmarked_unit _
    · exact unmarked_append.mpr ⟨unmarked_unit _, unmarked_unit _⟩

theorem unmarked_escapedSymbol (s : Symbol) : Unmarked (escapedSymbol s) := by
  cases s with
  | char c => exact unmarked_escapedChar c
  | lone n => exact unmarked_unit n

theorem unmarked_putText {out : String} (h : Unmarked out) (s : String) : Unmarked (putText out s) := by
  have hfold : ∀ (cs : List Symbol) (out : String), Unmarked out →
      Unmarked (cs.foldl (fun out c => out ++ escapedSymbol c) out) := by
    intro cs
    induction cs with
    | nil => exact fun _ hout => hout
    | cons c cs ih =>
      exact fun out hout => ih _ (unmarked_append.mpr ⟨hout, unmarked_escapedSymbol c⟩)
  rw [putText, unmarked_push]
  exact ⟨hfold _ _ (unmarked_push.mpr ⟨h, by decide⟩), by decide⟩

theorem unmarked_newLine (depth : Nat) : Unmarked (newLine depth) := by
  rw [newLine, unmarked_append]
  exact ⟨by decide, unmarked_ofList.mpr (mark_not_mem_replicate (by decide) _)⟩

theorem unmarked_realText (x : Binary64) : Unmarked (realText x) := by
  unfold realText
  split
  · decide
  · split <;> decide
  · exact Binary64.unmarked_shortest x

theorem unmarked_append_newLine {out sign : String} (h : Unmarked out) (hs : Unmarked sign) (depth : Nat) :
    Unmarked (out ++ sign ++ newLine depth) :=
  unmarked_append.mpr ⟨unmarked_append.mpr ⟨h, hs⟩, unmarked_newLine depth⟩

theorem unmarked_key {out : String} (h : Unmarked out) (k : String) : Unmarked (putText out k ++ ": ") :=
  unmarked_append.mpr ⟨unmarked_putText h k, by decide⟩

theorem unmarked_close {out sign : String} (h : Unmarked out) (depth : Nat) (hs : Unmarked sign) :
    Unmarked (out ++ newLine depth ++ sign) :=
  unmarked_append.mpr ⟨unmarked_append.mpr ⟨h, unmarked_newLine depth⟩, hs⟩

mutual

theorem unmarked_putIndented (depth : Nat) {out : String} (h : Unmarked out) :
    ∀ v, Unmarked (putIndented depth out v)
  | null => unmarked_append.mpr ⟨h, by decide⟩
  | bool true => unmarked_append.mpr ⟨h, by decide⟩
  | bool false => unmarked_append.mpr ⟨h, by decide⟩
  | int i => unmarked_append.mpr ⟨h, unmarked_repr i⟩
  | real x => unmarked_append.mpr ⟨h, unmarked_realText x⟩
  | str s => unmarked_putText h s
  | arr [] => unmarked_append.mpr ⟨h, by decide⟩
  | arr (x :: xs) => by
    have hopen := unmarked_append_newLine h (show Unmarked "[" by decide) (depth + 1)
    have hfirst := unmarked_putIndented (depth + 1) hopen x
    exact unmarked_close (unmarked_putIndentedItems (depth + 1) hfirst xs) depth (by decide)
  | obj [] => unmarked_append.mpr ⟨h, by decide⟩
  | obj ((k, v) :: fs) => by
    have hopen := unmarked_append_newLine h (show Unmarked "\x7b" by decide) (depth + 1)
    have hfirst := unmarked_putIndented (depth + 1) (unmarked_key hopen k) v
    exact unmarked_close (unmarked_putIndentedFields (depth + 1) hfirst fs) depth (by decide)

theorem unmarked_putIndentedItems (depth : Nat) {out : String} (h : Unmarked out) :
    ∀ xs, Unmarked (putIndentedItems depth out xs)
  | [] => h
  | x :: xs => by
    have hnext := unmarked_append_newLine h (show Unmarked "," by decide) depth
    exact unmarked_putIndentedItems depth (unmarked_putIndented depth hnext x) xs

theorem unmarked_putIndentedFields (depth : Nat) {out : String} (h : Unmarked out) :
    ∀ fs, Unmarked (putIndentedFields depth out fs)
  | [] => h
  | (k, v) :: fs => by
    have hnext := unmarked_append_newLine h (show Unmarked "," by decide) depth
    have hvalue := unmarked_putIndented depth (unmarked_key hnext k) v
    exact unmarked_putIndentedFields depth hvalue fs

end

end Json

end LockAudit
