-- SUMMARY: The Soundex code of a word, found in one pass, is the American Soundex code given by passes over all its letters.
import Mathlib.Data.List.Destutter
import Mathlib.Data.List.ReduceOption
import SchemaQuery.Suggest.Soundex

/-!
# American Soundex

The rules of American Soundex speak of the whole word: take its letters, strike out
`H` and `W` behind the first one, write the class of each letter that is left, merge
neighbours of one class, and keep the digits behind the first letter (`american`).

The code is found in one pass that remembers the class of the last letter and stops
at the third digit. `digitsBehind` is what the rules still give from a remembered
class on, and the pass gives the beginning of it for which there is room
(`digitsAfter_eq_take`).
-/

namespace SchemaQuery.Soundex

variable {l : List (Option Char)} {last next : Option Char} {c d : Char} {cs : List Char}
  {room : Nat}

/-! ## The rules -/

/-- An ASCII letter, capital or small. -/
def IsLetter (c : Char) : Prop :=
  'A' ≤ c ∧ c ≤ 'Z' ∨ 'a' ≤ c ∧ c ≤ 'z'

instance : DecidablePred IsLetter := fun c =>
  inferInstanceAs (Decidable ('A' ≤ c ∧ c ≤ 'Z' ∨ 'a' ≤ c ∧ c ≤ 'z'))

/-- The ASCII letters of a word, in upper case. -/
def capitals (word : String) : List Char :=
  (word.toList.filter fun c => IsLetter c).map Char.toUpper

/-- Whether a letter behind the first one counts at all. -/
def IsHeard (c : Char) : Prop :=
  c ≠ 'H' ∧ c ≠ 'W'

instance : DecidablePred IsHeard := fun c => inferInstanceAs (Decidable (c ≠ 'H' ∧ c ≠ 'W'))

/-- The consonants that sound alike, and the digit of their class. -/
def classes : List (List Char × Char) :=
  [(['B', 'F', 'P', 'V'], '1'),
   (['C', 'G', 'J', 'K', 'Q', 'S', 'X', 'Z'], '2'),
   (['D', 'T'], '3'),
   (['L'], '4'),
   (['M', 'N'], '5'),
   (['R'], '6')]

/-- The digit of a letter's class, or `none` for a letter that only separates others. -/
def class? (c : Char) : Option Char :=
  (classes.find? fun (consonants, _) => c ∈ consonants).map Prod.snd

/-- The digits behind the first letter: neighbours of one class merge, the class of the first letter is
    left out, and so are the separators. -/
def classDigits (first : Char) (rest : List Char) : List Char :=
  (((first :: rest.filter (IsHeard ·)).map class?).destutter (· ≠ ·)).tail.reduceOption

/-- The American Soundex code of a word: its first letter and three digits, filled up with zeros. -/
def american (word : String) : Option String :=
  match capitals word with
  | [] => none
  | first :: rest =>
    some (String.ofList (first :: (classDigits first rest ++ List.replicate 3 '0').take 3))

/-! ## Letters and classes -/

theorem isAlpha_iff (c : Char) : c.isAlpha = true ↔ IsLetter c := by
  have hcapital : c.isUpper = true ↔ 'A' ≤ c ∧ c ≤ 'Z' := decide_eq_true_iff
  have hsmall : c.isLower = true ↔ 'a' ≤ c ∧ c ≤ 'z' :=
    Bool.and_eq_true_iff.trans (and_congr decide_eq_true_iff decide_eq_true_iff)
  exact Bool.or_eq_true_iff.trans (or_congr hcapital hsmall)

theorem letters_eq_capitals (word : String) : letters word = capitals word := by
  rw [letters, capitals]
  congr 1
  refine List.filter_congr fun c _ => ?_
  rw [Bool.eq_iff_iff, isAlpha_iff, decide_eq_true_iff]

theorem digit?_eq_class? (c : Char) : digit? c = class? c := by
  unfold digit?
  split <;> simp_all [class?, classes]

/-! ## Merging in one pass -/

/-- The digits that the rules give for letters of the classes `l`, behind a letter of class `last`. -/
def digitsBehind (last : Option Char) (l : List (Option Char)) : List Char :=
  (l.destutter' (· ≠ ·) last).tail.reduceOption

@[simp] theorem digitsBehind_nil (last : Option Char) : digitsBehind last [] = [] := rfl

/-- A letter of the same class continues the run. -/
theorem digitsBehind_same : digitsBehind last (last :: l) = digitsBehind last l := by
  simp [digitsBehind]

/-- Merging keeps the class that it starts from in front. -/
theorem head?_merged (next : Option Char) (l : List (Option Char)) :
    (l.destutter' (· ≠ ·) next).head? = some next := by
  induction l with
  | nil => rfl
  | cons c l ih => by_cases hc : next = c <;> simp_all

/-- A letter of another class ends the run and begins one of its own. -/
theorem digitsBehind_other (h : last ≠ next) :
    digitsBehind last (next :: l) = next.toList ++ digitsBehind next l := by
  rw [digitsBehind, List.destutter'_cons_pos _ h, List.tail_cons,
    ← List.cons_head?_tail (head?_merged next l)]
  cases next <;> simp [digitsBehind]

/-- A separator ends the run, if there is one. -/
theorem digitsBehind_separator : digitsBehind last (none :: l) = digitsBehind none l := by
  by_cases h : last = none
  · rw [h, digitsBehind_same]
  · rw [digitsBehind_other h]
    rfl

/-! ## One letter of the pass -/

theorem digitsAfter_unheard (h : ¬ IsHeard c) :
    digitsAfter (room + 1) last (c :: cs) = digitsAfter (room + 1) last cs := by
  obtain rfl | rfl : c = 'H' ∨ c = 'W' := by simpa [IsHeard, or_iff_not_imp_left] using h
  · rfl
  · rfl

theorem digitsAfter_separator (h : IsHeard c) (hc : class? c = none) :
    digitsAfter (room + 1) last (c :: cs) = digitsAfter (room + 1) none cs := by
  rw [← digit?_eq_class?] at hc
  simp [digitsAfter, hc, h.1, h.2]

theorem digitsAfter_same (h : IsHeard c) (hc : class? c = some d) :
    digitsAfter (room + 1) (some d) (c :: cs) = digitsAfter (room + 1) (some d) cs := by
  rw [← digit?_eq_class?] at hc
  simp [digitsAfter, hc, h.1, h.2]

theorem digitsAfter_other (h : IsHeard c) (hc : class? c = some d) (hlast : last ≠ some d) :
    digitsAfter (room + 1) last (c :: cs) = d :: digitsAfter room (some d) cs := by
  rw [← digit?_eq_class?] at hc
  simp [digitsAfter, hc, h.1, h.2, hlast.symm]

/-! ## The whole pass -/

/-- The pass stops early, but up to there it gives the digits of the rules. -/
theorem digitsAfter_eq_take (room : Nat) (last : Option Char) (cs : List Char) :
    digitsAfter room last cs =
      (digitsBehind last ((cs.filter (IsHeard ·)).map class?)).take room := by
  -- after each letter the pass remembers the class that merging compares the next letter with
  induction cs generalizing room last with
  | nil => cases room <;> simp [digitsAfter]
  | cons c cs ih =>
    cases room with
    | zero => simp [digitsAfter]
    | succ room =>
      by_cases hheard : IsHeard c
      · rw [List.filter_cons_of_pos (by simpa using hheard), List.map_cons]
        cases hc : class? c with
        | none => rw [digitsAfter_separator hheard hc, digitsBehind_separator, ih]
        | some d =>
          by_cases hlast : last = some d
          · rw [hlast, digitsAfter_same hheard hc, digitsBehind_same, ih]
          · rw [digitsAfter_other hheard hc hlast, digitsBehind_other hlast, ih]
            rfl
      · rw [List.filter_cons_of_neg (by simpa using hheard), digitsAfter_unheard hheard, ih]

theorem digitsAfter_eq_classDigits (first : Char) (rest : List Char) :
    digitsAfter 3 (digit? first) rest = (classDigits first rest).take 3 := by
  rw [digitsAfter_eq_take, digit?_eq_class?]
  rfl

/-- Filling up what was cut is cutting what was filled up. -/
theorem take_append_replicate (digits : List Char) (n : Nat) (d : Char) :
    digits.take n ++ List.replicate (n - (digits.take n).length) d =
      (digits ++ List.replicate n d).take n := by
  rw [List.take_append, List.take_replicate, List.length_take]
  congr 2
  omega

theorem capitals_eq_nil_iff (word : String) :
    capitals word = [] ↔ ∀ c ∈ word.toList, ¬ IsLetter c := by
  simp [capitals]

/-- A word has no code exactly if it has no letter, and otherwise its code is the one that the rules
    of American Soundex give. -/
theorem code_american (word : String) :
    (code word = none ↔ ∀ c ∈ word.toList, ¬ IsLetter c) ∧ code word = american word := by
  rw [← capitals_eq_nil_iff, code, american, letters_eq_capitals]
  cases capitals word with
  | nil => simp
  | cons first rest =>
    refine ⟨by simp, ?_⟩
    simp only [digitsAfter_eq_classDigits, List.cons_append, take_append_replicate]

end SchemaQuery.Soundex
