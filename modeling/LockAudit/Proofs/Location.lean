import LockAudit.Location
import LockAudit.Proofs.Except
import Mathlib.Algebra.Group.Nat.Defs
import Mathlib.Data.List.Basic
import Mathlib.Data.List.TakeWhile

/-! # Locations are read back as they were written

Whatever the file is called, the words behind its last two colons are the line and the column: decimal
numerals have no colons. So a location whose numbers are natural and not too long is told by its text, and
every location that was read is one of these.
-/

namespace LockAudit

/-! ### Digits -/

namespace Text

theorem toNat_of_isDigit {c : Char} (h : c.isDigit = true) : 48 ≤ c.toNat ∧ c.toNat ≤ 57 :=
  Char.isDigit_iff_toNat.mp h

theorem decimalValue?_of_isDigit {c : Char} (h : c.isDigit = true) :
    decimalValue? c = some (c.toNat - '0'.toNat) := by
  simp [decimalValue?, decimalZeros, toNat_of_isDigit h]

theorem isDecimal_of_isDigit {c : Char} (h : c.isDigit = true) : isDecimal c = true := by
  rw [isDecimal, decimalValue?_of_isDigit h, Option.isSome_some]

theorem decimalValue?_lt {c : Char} {d : Nat} (h : decimalValue? c = some d) : d < 10 := by
  obtain ⟨z, hz, rfl⟩ := Option.map_eq_some_iff.mp h
  have hrange := List.find?_some hz
  simp only [Bool.and_eq_true, decide_eq_true_eq] at hrange
  omega

theorem isBlank_of_isDigit {c : Char} (h : c.isDigit = true) : isBlank c = false := by
  have hc := toNat_of_isDigit h
  refine List.any_eq_false.mpr fun r hr => ?_
  have hapart : ∀ r ∈ blankRanges, r.2 < 48 ∨ 57 < r.1 := by decide
  have := hapart r hr
  simp only [Bool.and_eq_true, decide_eq_true_eq]
  omega

theorem ofDigits_lt {ds : List Nat} (h : ∀ d ∈ ds, d < 10) : ofDigits ds < 10 ^ ds.length := by
  -- what was read before counts ten times as much with each further digit
  have hfold : ∀ a, ds.foldl (fun n d => 10 * n + d) a < 10 ^ ds.length * (a + 1) := by
    induction ds with
    | nil => simp
    | cons d ds ih =>
      obtain ⟨hd, hds⟩ := List.forall_mem_cons.mp h
      intro a
      calc (d :: ds).foldl (fun n d => 10 * n + d) a
        _ < 10 ^ ds.length * (10 * a + d + 1) := ih hds (10 * a + d)
        _ ≤ 10 ^ ds.length * (10 * (a + 1)) := Nat.mul_le_mul_left _ (by omega)
        _ = 10 ^ (d :: ds).length * (a + 1) := by rw [List.length_cons, Nat.pow_succ, Nat.mul_assoc]
  simpa [ofDigits] using hfold 0

theorem trimChars_eq_self {drop : Char → Bool} {cs : List Char} (h : ∀ c ∈ cs, drop c = false) :
    trimChars drop cs = cs := by
  have hkept : ∀ ds : List Char, (∀ c ∈ ds, drop c = false) → ds.dropWhile drop = ds := by
    intro ds hds
    cases ds with
    | nil => rfl
    | cons c ds => rw [List.dropWhile_cons_of_neg (by simp [hds c List.mem_cons_self])]
  rw [trimChars, hkept cs h, hkept cs.reverse (by simpa using h), List.reverse_reverse]

theorem mem_of_mem_trimChars {drop : Char → Bool} {cs : List Char} {c : Char}
    (h : c ∈ trimChars drop cs) : c ∈ cs := by
  have hback := (List.dropWhile_sublist drop).subset (List.mem_reverse.mp h)
  exact (List.dropWhile_sublist drop).subset (List.mem_reverse.mp hback)

end Text

/-! ### Numerals -/

namespace Numeral

open Text

theorem underscoresOk_of_isDigit {cs : List Char} (h : ∀ c ∈ cs, c.isDigit = true) (afterDigit : Bool) :
    underscoresOk afterDigit cs = true := by
  induction cs generalizing afterDigit with
  | nil => rfl
  | cons c cs ih =>
    obtain ⟨hc, hcs⟩ := List.forall_mem_cons.mp h
    have hne : c ≠ '_' := by
      rintro rfl
      cases hc
    rw [underscoresOk]
    · exact ih hcs _
    · exact hne

theorem sign_of_isDigit {cs : List Char} (h : ∀ c ∈ cs, c.isDigit = true) : sign cs = (false, cs) := by
  unfold sign
  split
  · cases h '-' List.mem_cons_self
  · cases h '+' List.mem_cons_self
  · rfl

/-- A word of ASCII digits is read as the number that it denotes. -/
theorem readInt_of_isDigit {cs : List Char} (h : ∀ c ∈ cs, c.isDigit = true) (hne : cs ≠ [])
    (hlength : cs.length ≤ digitLimit) :
    readInt (String.ofList cs) = .ok (Int.ofNat (Nat.ofDigitChars 10 cs 0)) := by
  have hword : wordChars (String.ofList cs) = cs := by
    rw [wordChars, String.toList_ofList]
    exact trimChars_eq_self fun c hc => by rw [isBlank_of_isDigit (h c hc), Bool.false_and]
  have hrun : cs.takeWhile (fun c => isDecimal c || c == '_') = cs := by
    refine List.takeWhile_eq_self_iff.mpr fun c hc => ?_
    rw [isDecimal_of_isDigit (h c hc), Bool.true_or]
  have hdigits : cs.filterMap decimalValue? = cs.map fun c => c.toNat - '0'.toNat :=
    List.filterMap_eq_map_iff_forall_eq_some.mpr fun c hc => decimalValue?_of_isDigit (h c hc)
  have hvalue : ofDigits (cs.map fun c => c.toNat - '0'.toNat) = Nat.ofDigitChars 10 cs 0 := by
    rw [ofDigits, List.foldl_map, Nat.ofDigitChars_eq_foldl]
  have hempty : (cs.map fun c => c.toNat - '0'.toNat).isEmpty = false := by simpa using hne
  rw [readInt, hword, sign_of_isDigit h]
  simp only [hrun, hdigits, hempty, underscoresOk_of_isDigit h, hvalue, List.length_map, Nat.lt_irrefl,
    Nat.not_lt.mpr hlength, Bool.not_true, Bool.or_self, Bool.false_eq_true, if_false]

def Fits (n : Int) : Prop :=
  0 ≤ n ∧ n.toNat.repr.length ≤ digitLimit

instance (n : Int) : Decidable (Fits n) :=
  inferInstanceAs (Decidable (0 ≤ n ∧ n.toNat.repr.length ≤ digitLimit))

/-- A word without a minus sign is read as a number that fits. -/
theorem fits_of_readInt {text : String} {n : Int} (hsign : '-' ∉ text.toList)
    (h : readInt text = .ok n) : Fits n := by
  have hpositive : (sign (wordChars text)).1 = false := by
    unfold sign
    split
    · rename_i cs hcs
      have hmem : '-' ∈ wordChars text := by simp [hcs]
      exact absurd (mem_of_mem_trimChars hmem) hsign
    · rfl
    · rfl
  unfold readInt at h
  simp only [hpositive, Bool.false_eq_true, if_false] at h
  split at h
  · cases h
  split at h
  · cases h
  rename_i hlength
  split at h
  · cases h
  cases h
  refine ⟨Int.natCast_nonneg _, (Nat.length_repr_le_iff (by decide)).mpr ?_⟩
  refine Nat.lt_of_lt_of_le (ofDigits_lt fun d hd => ?_)
    (Nat.pow_le_pow_right (by decide) (Nat.not_lt.mp hlength))
  obtain ⟨c, _, hc⟩ := List.mem_filterMap.mp hd
  exact decimalValue?_lt hc

end Numeral

/-! ### Locations -/

namespace Location

open Numeral

def digits (n : Int) : List Char :=
  Nat.toDigits 10 n.toNat

theorem isDigit_of_mem_digits {n : Int} {c : Char} (h : c ∈ digits n) : c.isDigit = true :=
  Nat.isDigit_of_mem_toDigits (by decide) (by decide) h

theorem colon_not_mem_digits (n : Int) : ':' ∉ digits n := by
  intro h
  cases isDigit_of_mem_digits h

theorem isNumberWord_digits (n : Int) : isNumberWord (digits n) = true := by
  have hall : (digits n).all Text.isDigit = true := by
    refine List.all_eq_true.mpr fun c hc => ?_
    rw [Text.isDigit, Text.isDecimal_of_isDigit (isDigit_of_mem_digits hc), Bool.true_or]
  rw [isNumberWord, hall, digits]
  simp

theorem numberWord_digits {n : Int} (h : Fits n) : numberWord (digits n) = .ok n := by
  have hlength : (digits n).length ≤ digitLimit := by
    rw [digits, ← Nat.toList_repr, String.length_toList]
    exact h.2
  rw [numberWord, readInt_of_isDigit (fun c => isDigit_of_mem_digits) Nat.toDigits_ne_nil hlength, digits,
    Nat.ofDigitChars_ten_toDigits]
  exact congrArg Except.ok (Int.toNat_of_nonneg h.1)

theorem toList_toString {n : Int} (h : 0 ≤ n) : (toString n).toList = digits n := by
  cases n with
  | ofNat n => exact Nat.toList_repr
  | negSucc n => exact absurd h (Int.negSucc_not_nonneg n).mp

theorem lastColon?_append {word : List Char} (h : ':' ∉ word) (before : List Char) :
    lastColon? (before ++ ':' :: word) = some (before, word) := by
  have hreverse : (before ++ ':' :: word).reverse = word.reverse ++ ':' :: before.reverse := by simp
  have hword : (word.reverse ++ ':' :: before.reverse).takeWhile (· != ':') = word.reverse := by
    rw [List.takeWhile_append_of_pos, List.takeWhile_cons_of_neg (by simp), List.append_nil]
    intro c hc
    have hne : c ≠ ':' := fun he => h (he ▸ List.mem_reverse.mp hc)
    simpa using hne
  rw [lastColon?, hreverse, hword]
  simp

structure Readable (l : Location) : Prop where
  line : Fits l.line
  column : Fits l.column

theorem toList_render {l : Location} (h : l.Readable) :
    l.render.toList = (l.file.toList ++ ':' :: digits l.line) ++ ':' :: digits l.column := by
  rw [← toList_toString h.line.1, ← toList_toString h.column.1, render]
  simp only [String.toList_append]
  simp [toString]

theorem parse_render {l : Location} (h : l.Readable) : parse l.render = .ok l := by
  rw [parse, toList_render h, lastColon?_append (colon_not_mem_digits l.column)]
  simp only [isNumberWord_digits, numberWord_digits h.line, numberWord_digits h.column,
    lastColon?_append (colon_not_mem_digits l.line), Bool.not_true, Bool.false_eq_true, if_false, if_true,
    String.ofList_toList]
  rfl

theorem dash_not_mem {word : List Char} (h : isNumberWord word = true) : '-' ∉ word := by
  intro hmem
  have hdigit := List.all_eq_true.mp (Bool.and_eq_true_iff.mp h).2 _ hmem
  revert hdigit
  decide

theorem fits_of_numberWord {word : List Char} {n : Int} (hword : isNumberWord word = true)
    (h : numberWord word = .ok n) : Fits n := by
  refine fits_of_readInt ?_ h
  rw [String.toList_ofList]
  exact dash_not_mem hword

/-- The numbers of a location that was read are not too large to be read again. -/
theorem readable_of_parse {text : String} {l : Location} (h : parse text = .ok l) : l.Readable := by
  have hzero : Fits 0 := by decide
  unfold parse at h
  split at h
  · cases h
    exact ⟨hzero, hzero⟩
  split at h
  · cases h
    exact ⟨hzero, hzero⟩
  rename_i hlast
  obtain ⟨n, hn, h⟩ := except_bind_eq_ok h
  have hfits := fits_of_numberWord (by simpa using hlast) hn
  split at h
  · cases h
    exact ⟨hfits, hzero⟩
  split at h
  · rename_i hword
    obtain ⟨line, hline, h⟩ := except_bind_eq_ok h
    cases h
    exact ⟨fits_of_numberWord hword hline, hfits⟩
  · cases h
    exact ⟨hfits, hzero⟩

/-- A location whose numbers fit is read back from its text, so its text tells it, and whatever is read
stays the same when it is written and read again. -/
theorem text_tells_location :
    (∀ l : Location, l.Readable → parse l.render = .ok l) ∧
    (∀ l m : Location, l.Readable → m.Readable → l.render = m.render → l = m) ∧
    ∀ (text : String) (l : Location), parse text = .ok l → l.Readable ∧ parse l.render = .ok l := by
  refine ⟨fun l => parse_render, ?_, fun text l h => ⟨readable_of_parse h, ?_⟩⟩
  · intro l m hl hm h
    have hread : parse l.render = .ok m := by rw [h, parse_render hm]
    exact Except.ok.inj ((parse_render hl).symm.trans hread)
  · exact parse_render (readable_of_parse h)

/-- A file whose name has colons and ends like a location. -/
theorem text_tells_location_numbered :
    Readable ⟨"C::7:12", 40, 0⟩ ∧ render ⟨"C::7:12", 40, 0⟩ = "C::7:12:40:0" ∧
      parse "C::7:12:40:0" = .ok ⟨"C::7:12", 40, 0⟩ := by
  have hfits : Readable ⟨"C::7:12", 40, 0⟩ := ⟨by decide, by decide⟩
  have hrender : render ⟨"C::7:12", 40, 0⟩ = "C::7:12:40:0" := by decide
  exact ⟨hfits, hrender, hrender ▸ text_tells_location.1 _ hfits⟩

end Location

end LockAudit
