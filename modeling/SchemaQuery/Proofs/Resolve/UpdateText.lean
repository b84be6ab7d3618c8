-- SUMMARY: The text of an update tells which accumulator it updates.
import SchemaQuery.Proofs.Resolve.Binding

/-!
# Texts of updates

Updates are told apart by their texts, `SetName('name(args)', args)`, although
neither names nor arguments are kept free of the signs in between. The text holds
the name twice, up to case, and the arguments twice, so an update with another
name or other arguments never has the same text.
-/

namespace SchemaQuery

/-! ## Texts -/

/-- The text of a call of the setter `S` for the accumulator of the aggregate `N` with the rendered
    arguments `R`, followed by `X`. -/
def updateText (S N R X : List Char) : List Char :=
  S ++ '(' :: '\'' :: (N ++ '(' :: (R ++ ')' :: '\'' :: (X ++ [')'])))

/-- `S` is a setter of the aggregate `N`, up to case. -/
def SetterText (S N : List Char) : Prop :=
  S.map Char.toLower = ('S' :: 'e' :: 't' :: N).map Char.toLower

/-- `X` hands the arguments `R` on. -/
def HandedOn (R X : List Char) : Prop := R = [] ∧ X = [] ∨ X = ',' :: ' ' :: R

theorem eq_paren_of_toLower {c : Char} (h : c.toLower = '(') : c = '(' := by
  unfold Char.toLower at h
  split at h
  · rename_i hupper
    have hlo : 65 ≤ c.toNat := by simpa [UInt32.le_iff_toNat_le] using hupper.1
    have hhi : c.toNat ≤ 90 := by simpa [UInt32.le_iff_toNat_le] using hupper.2
    have hval : (c.toNat + 32) % 4294967296 = 40 := by
      simpa [UInt32.toNat_add] using congrArg Char.toNat h
    omega
  · exact h

namespace SetterText

variable {S N : List Char}

theorem length (h : SetterText S N) : S.length = N.length + 3 := by
  have hlength := congrArg List.length h
  simpa using hlength

/-- An opening bracket of the setter is one of the name. -/
theorem paren (h : SetterText S N) {i : Nat} (hi : S[i + 3]? = some '(') : N[i]? = some '(' := by
  have hget := congrArg (·[i + 3]?) h
  simp only [List.getElem?_map, hi, List.getElem?_cons_succ, Option.map_some] at hget
  obtain ⟨c, hc, hlower⟩ := Option.map_eq_some_iff.1 hget.symm
  rw [hc, eq_paren_of_toLower hlower]

end SetterText

/-! ## Positions -/

section Positions

variable {S S' N N' R R' X X' : List Char}

theorem updateText_length (hS : SetterText S N) :
    (updateText S N R X).length = 2 * N.length + R.length + X.length + 9 := by
  simp only [updateText, List.length_append, List.length_cons, List.length_nil, hS.length]
  omega

theorem getElem?_updateText_setter {i : Nat} (h : i < S.length) :
    (updateText S N R X)[i]? = S[i]? :=
  List.getElem?_append_left h

theorem getElem?_updateText_paren : (updateText S N R X)[S.length]? = some '(' := by
  simp [updateText]

theorem getElem?_updateText_name (hS : SetterText S N) {i : Nat} (h : i < N.length) :
    (updateText S N R X)[N.length + 5 + i]? = N[i]? := by
  have hindex : N.length + 5 + i = S.length + (i + 2) := by
    rw [hS.length]
    omega
  rw [updateText, hindex, List.getElem?_append_right (Nat.le_add_right _ _),
    Nat.add_sub_cancel_left]
  simp [List.getElem?_append_left h]

theorem getElem?_updateText_rest (hS : SetterText S N) (i : Nat) :
    (updateText S N R X)[2 * N.length + 6 + i]? = (R ++ ')' :: '\'' :: (X ++ [')']))[i]? := by
  have hsplit : updateText S N R X =
      (S ++ '(' :: '\'' :: (N ++ ['('])) ++ (R ++ ')' :: '\'' :: (X ++ [')'])) := by
    simp [updateText]
  have hlength : (S ++ '(' :: '\'' :: (N ++ ['('])).length = 2 * N.length + 6 := by
    simp only [List.length_append, List.length_cons, List.length_nil, hS.length]
    omega
  rw [hsplit, ← hlength, List.getElem?_append_right (Nat.le_add_right _ _),
    Nat.add_sub_cancel_left]

/-! ## Equal texts -/

/-- The name in one of two equal texts is no longer than in the other. -/
theorem length_le_of_updateText (hS : SetterText S N) (hS' : SetterText S' N')
    (hX : HandedOn R X) (hX' : HandedOn R' X')
    (h : updateText S N R X = updateText S' N' R' X') : N'.length ≤ N.length := by
  by_contra hlt
  obtain ⟨d, hd⟩ : ∃ d, N'.length = N.length + 1 + d := ⟨N'.length - N.length - 1, by omega⟩
  have hlength := congrArg List.length h
  rw [updateText_length hS, updateText_length hS'] at hlength
  -- The bracket after the shorter setter stands inside the longer one, and so inside its name.
  have hsetter : S'[N.length + 3]? = some '(' := by
    have hparen := @getElem?_updateText_paren S N R X
    rwa [h, hS.length, getElem?_updateText_setter (by rw [hS'.length]; omega)] at hparen
  have hname := hS'.paren hsetter
  -- The name is repeated, and its bracket falls among the arguments of the other text.
  have hrest : (R ++ ')' :: '\'' :: (X ++ [')']))[d]? = some '(' := by
    rw [← getElem?_updateText_rest hS, h, ← hname, ← getElem?_updateText_name hS' (by omega)]
    congr 1
    omega
  rcases hX with ⟨rfl, rfl⟩ | rfl <;> rcases hX' with ⟨rfl, rfl⟩ | rfl <;>
    simp only [List.length_nil, List.length_cons] at hlength
  · omega
  · omega
  · obtain rfl : d = R.length := by omega
    simp at hrest
  · -- The arguments are repeated as well, and there the bracket meets a separator.
    have hin : R[d]? = some '(' := by
      rwa [List.getElem?_append_left (by omega)] at hrest
    have hcopy : (R ++ ')' :: '\'' :: (',' :: ' ' :: R ++ [')']))[R.length + (d + 4)]? = R[d]? := by
      rw [List.getElem?_append_right (Nat.le_add_right _ _), Nat.add_sub_cancel_left]
      simp [List.getElem?_append_left (show d < R.length by omega)]
    have hspace : (R' ++ ')' :: '\'' :: (',' :: ' ' :: R' ++ [')']))[R'.length + 3]? = some ' ' := by
      simp
    rw [← getElem?_updateText_rest hS, h, hin] at hcopy
    rw [← getElem?_updateText_rest hS'] at hspace
    have hindex : 2 * N.length + 6 + (R.length + (d + 4)) =
        2 * N'.length + 6 + (R'.length + 3) := by omega
    rw [hindex, hspace] at hcopy
    cases hcopy

theorem updateText_inj (hS : SetterText S N) (hS' : SetterText S' N') (hX : HandedOn R X)
    (hX' : HandedOn R' X') (h : updateText S N R X = updateText S' N' R' X') :
    N = N' ∧ R = R' := by
  have hnames : N.length = N'.length := Nat.le_antisymm
    (length_le_of_updateText hS' hS hX' hX h.symm) (length_le_of_updateText hS hS' hX hX' h)
  have hlength := congrArg List.length h
  rw [updateText_length hS, updateText_length hS'] at hlength
  have hargs : R.length = R'.length := by
    rcases hX with ⟨rfl, rfl⟩ | rfl <;> rcases hX' with ⟨rfl, rfl⟩ | rfl <;>
      simp only [List.length_nil, List.length_cons] at hlength ⊢ <;> omega
  obtain ⟨-, hrest⟩ := List.append_inj h (by rw [hS.length, hS'.length, hnames])
  obtain ⟨hname, hrest⟩ := List.append_inj (List.cons.inj (List.cons.inj hrest).2).2 hnames
  exact ⟨hname, (List.append_inj (List.cons.inj hrest).2 hargs).1⟩

end Positions

/-! ## Updates -/

theorem join_eq_intercalate {ts : List String} (h : ts ≠ []) :
    String.join (ts.map (", " ++ ·)) = ", " ++ ", ".intercalate ts := by
  induction ts with
  | nil => exact absurd rfl h
  | cons t ts ih =>
    by_cases hts : ts = []
    · subst hts
      simp
    · rw [List.map_cons, String.join_cons, ih hts, String.intercalate_cons_of_ne_nil hts]
      simp [String.append_assoc]

theorem handedOn_args (args : List Term) :
    HandedOn (", ".intercalate (args.map (·.render))).toList
      (String.join (args.map fun t => ", " ++ t.render)).toList := by
  by_cases hargs : args = []
  · subst hargs
    exact .inl ⟨rfl, rfl⟩
  · right
    have hjoin := join_eq_intercalate (by simpa using hargs : args.map (·.render) ≠ [])
    rw [List.map_map] at hjoin
    exact (congrArg String.toList hjoin).trans (String.toList_append ..)

theorem RefreshCall.toList_render {c : RefreshCall} {m : AggregateRef} {args : List Term}
    {type : DataType} (hc : c.Updates (.aggregate m args type)) :
    c.render.toList = updateText c.setter.toList m.name.toList
      (", ".intercalate (args.map (·.render))).toList
      (String.join (args.map fun t => ", " ++ t.render)).toList := by
  obtain ⟨haccumulator, -, rfl, hname, -⟩ := hc
  simp [RefreshCall.render, haccumulator, hname, accumulatorName, updateText]

theorem RefreshCall.Updates.setterText {c : RefreshCall} {m : AggregateRef} {args : List Term}
    {type : DataType} (hc : c.Updates (.aggregate m args type)) :
    SetterText c.setter.toList m.name.toList := by
  obtain ⟨-, -, -, -, hsetter⟩ := hc
  simpa [SetterText, Text.eqIgnoreAsciiCase, setterName] using hsetter

/-- Updates with the same text update the same accumulator. -/
theorem RefreshCall.accumulator_eq_of_render {c c' : RefreshCall} {g g' : Term} (hc : c.Updates g)
    (hc' : c'.Updates g') (h : c.render = c'.render) : c.accumulator = c'.accumulator := by
  cases g with
  | aggregate m args type =>
    cases g' with
    | aggregate m' args' type' =>
      have htext := congrArg String.toList h
      rw [toList_render hc, toList_render hc'] at htext
      obtain ⟨hname, hargs⟩ := updateText_inj hc.setterText hc'.setterText (handedOn_args args)
        (handedOn_args args') htext
      rw [hc.1, hc'.1, hc.2.2.2.1, hc'.2.2.2.1, accumulatorName, accumulatorName,
        String.toList_inj.1 hname, String.toList_inj.1 hargs]
    | _ => exact absurd hc' id
  | _ => exact absurd hc id

end SchemaQuery
