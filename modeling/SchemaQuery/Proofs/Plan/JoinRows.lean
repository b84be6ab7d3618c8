-- SUMMARY: One join step fills its table with the rows of the join, cut down to the needed columns.
import Mathlib.Data.List.Nodup
import SchemaQuery.Proofs.Plan.Reading
import SchemaQuery.Proofs.Plan.Redirect

/-!
# Rows of a join step

A row at hand simulates a full row of a source when it gives the same values for
all columns that are still needed (`Simulates`). A nested loop over rows that
simulate those of the left side, and over the rows of a leaf on the right, gives
rows that simulate those of the join: matched pairs, and padded rows of the side
that is kept.
-/

namespace SchemaQuery.Plan

open List (Forall₂)

/-! ## Loops over related rows -/

section Loops

variable {L L' R R' T T' : Type} {SL : L → L' → Prop} {SR : R → R' → Prop} {ST : T → T' → Prop}

theorem any_eq_of_forall₂ {p : R → Bool} {q : R' → Bool} {rs : List R} {rs' : List R'}
    (h : Forall₂ SR rs rs') (hpq : ∀ r r', SR r r' → p r = q r') : rs.any p = rs'.any q := by
  induction h with
  | nil => rfl
  | cons hr _ ih => rw [List.any_cons, List.any_cons, hpq _ _ hr, ih]

/-- Loops over related rows give related rows. -/
theorem nestedLoop_forall₂ {kept : Option JoinSide} {lefts : List L} {lefts' : List L'}
    {rights : L → List R} {rights' : L' → List R'} {alone : List R} {alone' : List R'}
    {matching : L → R → Bool} {matching' : L' → R' → Bool} {pair : L → R → T}
    {pair' : L' → R' → T'} {ofLeft : L → T} {ofLeft' : L' → T'} {ofRight : R → T}
    {ofRight' : R' → T'} (hlefts : Forall₂ SL lefts lefts')
    (hrights : ∀ l l', SL l l' → Forall₂ SR (rights l) (rights' l'))
    (halone : kept = some .right → Forall₂ SR alone alone')
    (hmatching : ∀ l l' r r', SL l l' → SR r r' → matching l r = matching' l' r')
    (hpair : ∀ l l' r r', SL l l' → SR r r' → ST (pair l r) (pair' l' r'))
    (hleft : kept = some .left → ∀ l l', SL l l' → ST (ofLeft l) (ofLeft' l'))
    (hright : kept = some .right → ∀ r r', SR r r' → ST (ofRight r) (ofRight' r')) :
    Forall₂ ST (nestedLoop kept lefts rights alone matching pair ofLeft ofRight)
      (nestedLoop kept lefts' rights' alone' matching' pair' ofLeft' ofRight') := by
  have hmatched : ∀ l l', SL l l' → Forall₂ ST (((rights l).filter (matching l)).map (pair l))
      (((rights' l').filter (matching' l')).map (pair' l')) := by
    intro l l' hl
    have hfiltered : Forall₂ SR ((rights l).filter (matching l))
        ((rights' l').filter (matching' l')) :=
      List.rel_filter (fun r r' hr => Bool.eq_iff_iff.1 (hmatching l l' r r' hl hr)) (hrights l l' hl)
    exact List.rel_map (fun r r' hr => hpair l l' r r' hl hr) hfiltered
  have hpairs : Forall₂ ST (lefts.flatMap fun l => ((rights l).filter (matching l)).map (pair l))
      (lefts'.flatMap fun l => ((rights' l).filter (matching' l)).map (pair' l)) :=
    List.rel_flatMap hlefts hmatched
  cases kept with
  | none => exact hpairs
  | some side =>
    cases side with
    | left =>
      refine List.rel_flatMap hlefts fun l l' hl => ?_
      have hany := any_eq_of_forall₂ (hrights l l' hl) fun r r' hr => hmatching l l' r r' hl hr
      rw [hany]
      split
      · exact hmatched l l' hl
      · exact .cons (hleft rfl l l' hl) .nil
    | right =>
      refine List.rel_append hpairs (List.rel_map (fun r r' hr => hright rfl r r' hr) ?_)
      refine List.rel_filter (fun r r' hr => ?_) (halone rfl)
      have hany := any_eq_of_forall₂ hlefts fun l l' hl => hmatching l l' r r' hl hr
      exact Bool.eq_iff_iff.1 (congrArg Bool.not hany)

end Loops

/-! ## Columns of the leaves -/

/-- The names that the columns of all leaves have in a transition table. -/
def qualifiedNames (leaves : List (String × List Column)) : List String :=
  leaves.flatMap fun l => l.2.map fun c => qualifiedName l.1 c.name

variable {V : Type} {I : Interpretation V} {leaves : List (String × List Column)}

theorem eq_of_qualifiedName (hnames : (qualifiedNames leaves).Nodup) {l l' : String × List Column}
    {c c' : Column} (hl : l ∈ leaves) (hc : c ∈ l.2) (hl' : l' ∈ leaves) (hc' : c' ∈ l'.2)
    (h : qualifiedName l.1 c.name = qualifiedName l'.1 c'.name) : l.1 = l'.1 ∧ c = c' := by
  let pairs := leaves.flatMap fun l => l.2.map fun c => (l.1, c)
  have hmap : qualifiedNames leaves = pairs.map fun p => qualifiedName p.1 p.2.name := by
    simp only [qualifiedNames, pairs, List.map_flatMap, List.map_map]
    rfl
  have hmem {l : String × List Column} {c : Column} (hl : l ∈ leaves) (hc : c ∈ l.2) :
      (l.1, c) ∈ pairs := List.mem_flatMap.2 ⟨l, hl, List.mem_map_of_mem hc⟩
  rw [hmap] at hnames
  exact Prod.mk.inj (List.inj_on_of_nodup_map hnames (hmem hl hc) (hmem hl' hc') h)

/-! ## Simulated rows -/

/-- The row at hand has the needed columns of a full row of a source: it is the row of the only
    leaf, or one of a transition table with columns of the leaves. -/
structure Simulates (I : Interpretation V) (src : BoundSource) (needs : ColumnNeeds) (r : Relation)
    (ρ : FullRow V) (row : List (Binding V)) : Prop where
  outside : ∀ a, a ∉ src.leafAliases → ρ a = I.nulls a
  binding : (∃ a, src.leafAliases = [a] ∧ r.table = none ∧ row = [.source a (ρ a)]) ∨
    ∃ table values, r.table = some table ∧ row = [.table table values] ∧
      (∀ l ∈ src.leaves, ∀ c ∈ l.2, needs.needs l.1 c.name = true →
        values (qualifiedName l.1 c.name) = some (ρ l.1 c.name)) ∧
      ∀ n v, values n = some v → ∃ l ∈ src.leaves, ∃ c ∈ l.2, n = qualifiedName l.1 c.name

/-- A row of a single source, as a full row and at hand. -/
def LeafRow (I : Interpretation V) (a : String) (ρ : FullRow V) (row : List (Binding V)) : Prop :=
  ∃ x, ρ = I.single a x ∧ row = [.source a x]

variable {left right : BoundSource} {inputs needs : ColumnNeeds} {leftRelation rightRelation : Relation}
variable {ρ : FullRow V} {row : List (Binding V)}

theorem Simulates.provides (h : Simulates I left inputs leftRelation ρ row)
    (hcarries : leftRelation.leaves = left.leafAliases) {l : String × List Column}
    (hl : l ∈ left.leaves) {c : Column} (hc : c ∈ l.2) (hneeds : inputs.needs l.1 c.name = true)
    (rs : List Relation) (rest : List (Binding V)) :
    Provides I leaves (leftRelation :: rs) (row ++ rest) l.1 c.name (ρ l.1 c.name) := by
  have hmem : l.1 ∈ left.leafAliases := left.map_leaves ▸ List.mem_map_of_mem hl
  have hfind : (leftRelation :: rs).find? (·.carries l.1) = some leftRelation := by
    simp [Relation.carries, hcarries, hmem]
  rcases h.binding with ⟨a, haliases, htable, rfl⟩ | ⟨table, values, htable, rfl, hvalues, -⟩
  · obtain rfl : l.1 = a := by simpa [haliases] using hmem
    refine ⟨fun o q type => ?_, by simp⟩
    simp [relocateNode, hfind, htable, Reader.read?, Interpretation.planReader]
  · have hvalue := hvalues l hl c hc hneeds
    refine ⟨fun o q type => ?_, by simp [hvalue]⟩
    simp [relocateNode, hfind, htable, Reader.read?, Interpretation.planReader, hvalue]

/-- A relation over the left side of a join and a leaf as its right side, which is read directly. -/
structure Sides (leaves : List (String × List Column)) (left right : BoundSource)
    (leftRelation rightRelation : Relation) (b : String) (cs : List Column) : Prop where
  names : (qualifiedNames leaves).Nodup
  subset : left.leaves ++ right.leaves ⊆ leaves
  carries : leftRelation.leaves = left.leafAliases
  leaf : right.leaves = [(b, cs)]
  direct : rightRelation.table = none
  own : rightRelation.leaves = [b]
  apart : b ∉ left.leafAliases

namespace Sides

variable {b : String} {cs : List Column}

theorem leafAliases (h : Sides leaves left right leftRelation rightRelation b cs) :
    right.leafAliases = [b] := by
  rw [← right.map_leaves, h.leaf]
  rfl

theorem merge_left (h : Sides leaves left right leftRelation rightRelation b cs) {a : String}
    (ha : ¬a = b) (ρ ρ' : FullRow V) : ρ.merge right ρ' a = ρ a := by
  simp [FullRow.merge, h.leafAliases, ha]

theorem merge_right (h : Sides leaves left right leftRelation rightRelation b cs)
    (ρ : FullRow V) (x : Row V) : ρ.merge right (I.single b x) b = x := by
  simp [FullRow.merge, h.leafAliases, Interpretation.single]

theorem ne_of_mem (h : Sides leaves left right leftRelation rightRelation b cs)
    {l : String × List Column} (hl : l ∈ left.leaves) : ¬l.1 = b := by
  intro heq
  exact h.apart (heq ▸ left.map_leaves ▸ List.mem_map_of_mem hl)

/-- Beside a row of the left side, a row of the leaf has its own columns. -/
theorem provides_right (h : Sides leaves left right leftRelation rightRelation b cs)
    (hrow : Simulates I left inputs leftRelation ρ row) {c : Column} (hc : c ∈ cs) (x : Row V) :
    Provides I leaves [leftRelation, rightRelation] (row ++ [.source b x]) b c.name
      (x c.name) := by
  have hfind : [leftRelation, rightRelation].find? (·.carries b) = some rightRelation := by
    simp [Relation.carries, h.carries, h.apart, h.own]
  have hcolumn : ∀ o q type, relocateNode [leftRelation, rightRelation] (.column b c.name o q type) =
      .column b c.name o q type := by
    intro o q type
    simp [relocateNode, hfind, h.direct]
  have hleft : row.findSome? (·.column? b c.name) = none ∧
      row.findSome? (·.carried? b c.name) = none := by
    rcases hrow.binding with ⟨a, haliases, -, rfl⟩ | ⟨table, values, -, rfl, -, hnamed⟩
    · have hne : ¬a = b := by
        rintro rfl
        exact h.apart (by simp [haliases])
      simp [hne]
    · refine ⟨by simp, ?_⟩
      -- a table of the left side has no column of that name, since the names are distinct
      cases hv : values (qualifiedName b c.name) with
      | none => simp [hv]
      | some v =>
        obtain ⟨l, hl, c', hc', heq⟩ := hnamed _ _ hv
        have hmem : (b, cs) ∈ leaves := h.subset (List.mem_append_right _ (by simp [h.leaf]))
        obtain ⟨hbl, -⟩ := eq_of_qualifiedName h.names hmem hc
          (h.subset (List.mem_append_left _ hl)) hc' heq
        exact absurd hbl.symm (h.ne_of_mem hl)
  refine ⟨fun o q type => ?_, ?_⟩
  · simp [hcolumn, Reader.read?, Interpretation.planReader, List.findSome?_append, hleft.1]
  · simp [List.findSome?_append, hleft.2]

/-- A pair of rows has all columns of both sides. -/
theorem provides_pair (h : Sides leaves left right leftRelation rightRelation b cs)
    (hrow : Simulates I left inputs leftRelation ρ row) (x : Row V) :
    ∀ l ∈ left.leaves ++ right.leaves, ∀ c ∈ l.2, inputs.needs l.1 c.name = true →
      Provides I leaves [leftRelation, rightRelation] (row ++ [.source b x]) l.1 c.name
        (ρ.merge right (I.single b x) l.1 c.name) := by
  intro l hl c hc hneeds
  rcases List.mem_append.1 hl with hl | hl
  · rw [h.merge_left (h.ne_of_mem hl)]
    exact hrow.provides h.carries hl hc hneeds [rightRelation] [.source b x]
  · obtain rfl : l = (b, cs) := by simpa [h.leaf] using hl
    rw [h.merge_right]
    exact h.provides_right hrow hc x

end Sides

/-! ## Join tables -/

/-- The columns of a join table are the needed columns of the leaves. -/
structure Trimmed (src : BoundSource) (needs : ColumnNeeds) (sources : List (String × Column)) :
    Prop where
  sound : ∀ s ∈ sources, ∃ l ∈ src.leaves, ∃ c ∈ l.2, s.1 = l.1 ∧ s.2.name = c.name ∧
    needs.needs l.1 c.name = true
  complete : ∀ l ∈ src.leaves, ∀ c ∈ l.2, needs.needs l.1 c.name = true →
    ∃ s ∈ sources, s.1 = l.1 ∧ s.2.name = c.name

theorem trimmed_of_leafTables {s : Scopes} (hs : s.Ordered) {id : Nat} {src : BoundSource}
    {tables : List TableSymbol} (ht : LeafTables s id src tables) {needs : ColumnNeeds}
    {sources : List (String × Column)}
    (h : trimmedColumns s id src.leafAliases needs = .ok sources) : Trimmed src needs sources := by
  rw [trimmedColumns_of_leafTables hs ht needs] at h
  cases h
  constructor
  · intro p hp
    obtain ⟨t, htable, hp⟩ := List.mem_flatMap.1 hp
    obtain ⟨c, hc, rfl⟩ := List.mem_map.1 hp
    obtain ⟨hvisible, hneeds⟩ := List.mem_filter.1 hc
    obtain ⟨c', hc', rfl⟩ := List.mem_map.1 hvisible
    rw [TableSymbol.view_name] at hneeds
    exact ⟨t.leaf, ht.leaves ▸ List.mem_map_of_mem htable, c', hc', rfl, t.view_name c', hneeds⟩
  · intro l hl c hc hneeds
    rw [← ht.leaves] at hl
    obtain ⟨t, htable, rfl⟩ := List.mem_map.1 hl
    refine ⟨(t.aliasName, t.view c), List.mem_flatMap.2 ⟨t, htable, List.mem_map_of_mem ?_⟩, rfl,
      t.view_name c⟩
    refine List.mem_filter.2 ⟨List.mem_map_of_mem hc, ?_⟩
    rw [TableSymbol.view_name]
    exact hneeds

theorem joinColumns_eq (sources : List (String × Column)) :
    joinColumns sources = sources.zipIdx.map fun p =>
      ⟨qualifiedName p.1.1 p.1.2.name, p.2, p.1.2.type⟩ := by
  simp only [joinColumns, Column.number, List.zipIdx_map, List.map_map]
  rfl

/-- The columns of a join table beside what is said of their sources. -/
theorem zip_joinColumns {β : Type} (sources : List (String × Column))
    (f : String × Column → β) : (joinColumns sources).zip (sources.map f) =
      sources.zipIdx.map fun p =>
        (⟨qualifiedName p.1.1 p.1.2.name, p.2, p.1.2.type⟩, f p.1) := by
  rw [joinColumns_eq]
  conv_lhs => enter [2]; rw [← sources.zipIdx_map_fst 0, List.map_map]
  rw [List.zip_map']
  rfl

/-- Numbered columns have the names and types that they were made from. -/
theorem number_entries (defs : List (String × DataType)) :
    (Column.number defs).map (fun c => (c.name, c.type)) = defs := by
  rw [Column.number, List.map_map]
  conv_rhs => rw [← defs.zipIdx_map_fst 0]
  rfl

theorem number_names (defs : List (String × DataType)) :
    (Column.number defs).map (·.name) = defs.map (·.1) := by
  conv_rhs => rw [← number_entries defs, List.map_map]
  rfl

theorem number_types (defs : List (String × DataType)) :
    (Column.number defs).map (·.type) = defs.map (·.2) := by
  conv_rhs => rw [← number_entries defs, List.map_map]
  rfl

theorem joinColumns_names (sources : List (String × Column)) :
    (joinColumns sources).map (·.name) = sources.map fun s => qualifiedName s.1 s.2.name := by
  rw [joinColumns, number_names, List.map_map]
  rfl

theorem lookup_map_of_unique {α β : Type} {key : α → String} {f : α → β} {xs : List α} {k : String}
    {v : β} (hsome : ∃ x ∈ xs, key x = k) (hall : ∀ x ∈ xs, key x = k → f x = v) :
    (xs.map fun x => (key x, f x)).lookup k = some v := by
  induction xs with
  | nil => simp at hsome
  | cons x xs ih =>
    rw [List.map_cons, List.lookup_cons]
    by_cases hx : key x = k
    · simp [hx, hall x (List.mem_cons_self ..) hx]
    · have hne : (k == key x) = false := beq_eq_false_iff_ne.2 fun h => hx h.symm
      rw [hne]
      refine ih ?_ fun y hy => hall y (List.mem_cons_of_mem _ hy)
      simpa [hx] using hsome

/-- A row of a join table simulates the full row it was cut from. -/
theorem simulates_joinTable {src : BoundSource} {sources : List (String × Column)}
    (hnames : (qualifiedNames leaves).Nodup) (hsub : src.leaves ⊆ leaves)
    (ht : Trimmed src needs sources) (houtside : ∀ a, a ∉ src.leafAliases → ρ a = I.nulls a)
    (a table : String) (rows : List (List V)) :
    Simulates I src needs (.transition a table src.leafAliases) ρ
      [.table table (Table.row ⟨joinColumns sources, rows⟩
        (sources.map fun s => ρ s.1 s.2.name))] := by
  refine ⟨houtside, .inr ⟨table, _, rfl, rfl, ?_, ?_⟩⟩
  · intro l hl c hc hneeds
    have hall : ∀ s ∈ sources, qualifiedName s.1 s.2.name = qualifiedName l.1 c.name →
        ρ s.1 s.2.name = ρ l.1 c.name := by
      intro s hs heq
      obtain ⟨l', hl', c', hc', hs1, hs2, -⟩ := ht.sound s hs
      rw [hs1, hs2] at heq ⊢
      obtain ⟨hl1, rfl⟩ := eq_of_qualifiedName hnames (hsub hl') hc' (hsub hl) hc heq
      rw [hl1]
    obtain ⟨s, hs, hs1, hs2⟩ := ht.complete l hl c hc hneeds
    have hsome : ∃ s ∈ sources, qualifiedName s.1 s.2.name = qualifiedName l.1 c.name :=
      ⟨s, hs, by rw [hs1, hs2]⟩
    simp only [Table.row, joinColumns_names, List.zip_map']
    exact lookup_map_of_unique hsome hall
  · intro n v hv
    simp only [Table.row, joinColumns_names, List.zip_map'] at hv
    obtain ⟨before, after, heq, -⟩ := List.lookup_eq_some_iff.1 hv
    have hmem : (n, v) ∈ sources.map fun s => (qualifiedName s.1 s.2.name, ρ s.1 s.2.name) := by
      simp [heq]
    obtain ⟨s, hs, hsn⟩ := List.mem_map.1 hmem
    obtain ⟨l, hl, c, hc, hs1, hs2, -⟩ := ht.sound s hs
    obtain ⟨rfl, -⟩ := Prod.mk.inj hsn
    exact ⟨l, hl, c, hc, by rw [hs1, hs2]⟩

/-! ## Values of join tables -/

/-- The term that fills a column of a join table. -/
def joinTerm (left right : Relation) (s : String × Column) : Term :=
  if left.carries s.1 then left.read s.1 s.2 else right.read s.1 s.2

theorem joinSelect_eq (left right : Relation) (sources : List (String × Column)) :
    joinSelect left right sources = sources.map (joinTerm left right) := rfl

/-- A column of a join table reads what the column itself would be redirected to. -/
theorem joinTerm_eq {left right : Relation} {s : String × Column}
    (h : left.carries s.1 = true ∨ right.carries s.1 = true) :
    joinTerm left right s =
      relocateNode [left, right] (.column s.1 s.2.name s.2.ordinal true s.2.type) := by
  cases hl : left.carries s.1 with
  | true => cases ht : left.table <;> simp [joinTerm, relocateNode, Relation.read, hl, ht]
  | false =>
    have hr : right.carries s.1 = true := h.resolve_left (by simp [hl])
    cases ht : right.table <;> simp [joinTerm, relocateNode, Relation.read, hl, hr, ht]

theorem joinTerm_value {left right : Relation} {s : String × Column} {row : List (Binding V)}
    {v : V} (h : left.carries s.1 = true ∨ right.carries s.1 = true)
    (hprovides : Provides I leaves [left, right] row s.1 s.2.name v) :
    I.value (I.planReader leaves row) (joinTerm left right s) = v := by
  rw [joinTerm_eq h, Interpretation.value, hprovides.read]
  rfl

/-- A padded row has null for every column of one side. -/
theorem padded_eq {left right side : Relation} (sources : List (String × Column))
    (row : List (Binding V)) :
    I.padded leaves (joinColumns sources) (sideColumns side sources)
        (joinSelect left right sources) row =
      sources.map fun s => if side.carries s.1 then I.null
        else I.value (I.planReader leaves row) (joinTerm left right s) := by
  let column (p : (String × Column) × Nat) : Column :=
    ⟨qualifiedName p.1.1 p.1.2.name, p.2, p.1.2.type⟩
  have hzip {β : Type} (f : String × Column → β) : (joinColumns sources).zip (sources.map f) =
      sources.zipIdx.map fun p => (column p, f p.1) := zip_joinColumns sources f
  have hside (p : (String × Column) × Nat) (hp : p ∈ sources.zipIdx) :
      column p ∈ sideColumns side sources ↔ side.carries p.1.1 = true := by
    have hself := hzip (fun s => s)
    rw [List.map_id'] at hself
    simp only [sideColumns, hself, List.mem_filterMap, List.mem_map]
    constructor
    · rintro ⟨_, ⟨p', hp', rfl⟩, hsome⟩
      split at hsome
      · rename_i hcarries
        -- a column has its position as ordinal, so it stands for one source only
        have hcolumn : column p' = column p := by simpa using hsome
        have hindex : p'.2 = p.2 := congrArg Column.ordinal hcolumn
        rw [List.mem_zipIdx_iff_getElem?] at hp hp'
        rw [hindex, hp] at hp'
        rwa [Option.some.inj hp']
      · cases hsome
    · intro hcarries
      exact ⟨_, ⟨p, hp, rfl⟩, by simp [hcarries]⟩
  rw [Interpretation.padded, joinSelect_eq, hzip, List.map_map]
  conv_rhs => rw [← sources.zipIdx_map_fst 0, List.map_map]
  refine List.map_congr_left fun p hp => ?_
  simp only [Function.comp_apply]
  simp only [hside p hp]


/-! ## Join steps -/

/-- The values of a join table are those of the full row of the join. -/
def JoinedRow (I : Interpretation V) (aliases : List String) (sources : List (String × Column))
    (ρ : FullRow V) (values : List V) : Prop :=
  (∀ a, a ∉ aliases → ρ a = I.nulls a) ∧ values = sources.map fun s => ρ s.1 s.2.name

/-- The relation whose columns are null where a row of the other side matches nothing. -/
def JoinSide.padded (left right : Relation) : JoinSide → Relation
  | .left => right
  | .right => left

section Steps

variable {b : String} {cs : List Column} {sources : List (String × Column)}

/-- The sources of a join table, each with the leaf it comes from. -/
theorem Sides.source_cases (h : Sides leaves left right leftRelation rightRelation b cs)
    {src : BoundSource} (hsrc : src.leaves = left.leaves ++ right.leaves)
    (ht : Trimmed src needs sources) {s : String × Column} (hs : s ∈ sources) :
    (∃ l ∈ left.leaves, ∃ c ∈ l.2, s.1 = l.1 ∧ s.2.name = c.name ∧
      needs.needs l.1 c.name = true ∧ leftRelation.carries s.1 = true ∧
      rightRelation.carries s.1 = false) ∨
    (s.1 = b ∧ (∃ c ∈ cs, s.2.name = c.name ∧ needs.needs b c.name = true) ∧
      leftRelation.carries s.1 = false ∧ rightRelation.carries s.1 = true) := by
  obtain ⟨l, hl, c, hc, hs1, hs2, hneeds⟩ := ht.sound s hs
  rw [hsrc] at hl
  rcases List.mem_append.1 hl with hl | hl
  · refine .inl ⟨l, hl, c, hc, hs1, hs2, hneeds, ?_, ?_⟩
    · have hmem : l.1 ∈ left.leafAliases := left.map_leaves ▸ List.mem_map_of_mem hl
      simp [Relation.carries, h.carries, hs1, hmem]
    · simp [Relation.carries, h.own, hs1, h.ne_of_mem hl]
  · obtain rfl : l = (b, cs) := by simpa [h.leaf] using hl
    refine .inr ⟨hs1, ⟨c, hc, hs2, hneeds⟩, ?_, ?_⟩
    · simp [Relation.carries, h.carries, hs1, h.apart]
    · simp [Relation.carries, h.own, hs1]

variable {src : BoundSource} (h : Sides leaves left right leftRelation rightRelation b cs)
variable (hsrc : src.leaves = left.leaves ++ right.leaves) (ht : Trimmed src needs sources)

include h hsrc in
theorem Sides.outside {a : String} (ha : a ∉ src.leafAliases) :
    a ∉ left.leafAliases ∧ ¬a = b := by
  rw [← src.map_leaves, hsrc, List.map_append, left.map_leaves, right.map_leaves, h.leafAliases]
    at ha
  simpa using ha

include h hsrc ht

theorem Sides.joinedRow_pair (hle : needs.Le inputs)
    (hrow : Simulates I left inputs leftRelation ρ row) (x : Row V) :
    JoinedRow I src.leafAliases sources (ρ.merge right (I.single b x))
      ((joinSelect leftRelation rightRelation sources).map
        (I.value (I.planReader leaves (row ++ [.source b x])))) := by
  constructor
  · intro a ha
    obtain ⟨hleft, hne⟩ := h.outside hsrc ha
    rw [h.merge_left hne]
    exact hrow.outside a hleft
  · rw [joinSelect_eq, List.map_map]
    refine List.map_congr_left fun s hs => ?_
    have hcarries : leftRelation.carries s.1 = true ∨ rightRelation.carries s.1 = true := by
      rcases h.source_cases hsrc ht hs with ⟨_, _, _, _, _, _, _, hl, _⟩ | ⟨_, _, _, hr⟩
      · exact .inl hl
      · exact .inr hr
    obtain ⟨l, hl, c, hc, hs1, hs2, hneeds⟩ := ht.sound s hs
    refine joinTerm_value hcarries ?_
    rw [hs1, hs2]
    exact h.provides_pair hrow x l (hsrc ▸ hl) c hc (hle.columns _ _ hneeds)

theorem Sides.joinedRow_left (hle : needs.Le inputs)
    (hrow : Simulates I left inputs leftRelation ρ row) :
    JoinedRow I src.leafAliases sources ρ
      (I.padded leaves (joinColumns sources) (sideColumns rightRelation sources)
        (joinSelect leftRelation rightRelation sources) row) := by
  constructor
  · intro a ha
    exact hrow.outside a (h.outside hsrc ha).1
  · rw [padded_eq]
    refine List.map_congr_left fun s hs => ?_
    rcases h.source_cases hsrc ht hs with
      ⟨l, hl, c, hc, hs1, hs2, hneeds, hcarries, hother⟩ | ⟨rfl, _, _, hcarries⟩
    · rw [if_neg (by simp [hother])]
      refine joinTerm_value (.inl hcarries) ?_
      rw [hs1, hs2]
      simpa using hrow.provides h.carries hl hc (hle.columns _ _ hneeds) [rightRelation] []
    · rw [if_pos hcarries, hrow.outside s.1 h.apart]
      rfl

theorem Sides.joinedRow_right (x : Row V) :
    JoinedRow I src.leafAliases sources (I.single b x)
      (I.padded leaves (joinColumns sources) (sideColumns leftRelation sources)
        (joinSelect leftRelation rightRelation sources) [.source b x]) := by
  constructor
  · intro a ha
    exact Function.update_of_ne (h.outside hsrc ha).2 _ _
  · rw [padded_eq]
    refine List.map_congr_left fun s hs => ?_
    rcases h.source_cases hsrc ht hs with
      ⟨l, hl, c, hc, hs1, hs2, hneeds, hcarries, hother⟩ | ⟨rfl, _, hother, hcarries⟩
    · rw [if_pos hcarries, Interpretation.single, hs1, Function.update_of_ne (h.ne_of_mem hl)]
      rfl
    · rw [if_neg (by simp [hother]), Interpretation.single, Function.update_self]
      simp [joinTerm, hother, Relation.read, h.direct, Interpretation.value, Reader.read?,
        Interpretation.planReader]

/-- The rows of a join step are those of the join. -/
theorem Sides.loopRows_joined {kept : Option JoinSide} {kind : LoopKind} {predicate : Option Term}
    {σ : Store V} {lefts : List (FullRow V)} {rights : FullRow V → List (FullRow V)}
    {alone : List (FullRow V)} {matching : FullRow V → FullRow V → Bool} (hle : needs.Le inputs)
    (hpadding : paddingOf kind leftRelation rightRelation sources = kept.map fun side =>
      ⟨side, sideColumns (side.padded leftRelation rightRelation) sources⟩)
    (hlefts : Forall₂ (Simulates I left inputs leftRelation) lefts
      (I.scanRows leaves σ [] leftRelation.scan))
    (hrights : ∀ ρ row, Simulates I left inputs leftRelation ρ row →
      Forall₂ (LeafRow I b) (rights ρ) (I.scanRows leaves σ row rightRelation.scan))
    (halone : kept = some .right →
      Forall₂ (LeafRow I b) alone (I.scanRows leaves σ [] rightRelation.scan))
    (hmatching : ∀ ρ row x, Simulates I left inputs leftRelation ρ row →
      matching ρ (I.single b x) = predicate.all fun p =>
        I.holds (I.value (I.planReader leaves (row ++ [.source b x])) p)) :
    Forall₂ (JoinedRow I src.leafAliases sources)
      (nestedLoop kept lefts rights alone matching (FullRow.merge right) id id)
      (I.loopRows leaves σ (joinColumns sources) leftRelation.scan rightRelation.scan predicate
        (paddingOf kind leftRelation rightRelation sources)
        (joinSelect leftRelation rightRelation sources)) := by
  rw [Interpretation.loopRows, hpadding]
  simp only [Option.map_map, Function.comp_def, Option.map_id']
  refine nestedLoop_forall₂ hlefts hrights halone ?_ ?_ ?_ ?_
  · rintro ρ row _ _ hrow ⟨x, rfl, rfl⟩
    exact hmatching ρ row x hrow
  · rintro ρ row _ _ hrow ⟨x, rfl, rfl⟩
    exact h.joinedRow_pair hsrc ht hle hrow x
  · rintro rfl ρ row hrow
    exact h.joinedRow_left hsrc ht hle hrow
  · rintro rfl _ _ ⟨x, rfl, rfl⟩
    exact h.joinedRow_right hsrc ht x

end Steps

end SchemaQuery.Plan
