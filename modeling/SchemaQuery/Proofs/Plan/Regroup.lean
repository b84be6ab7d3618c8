-- SUMMARY: A term can be read from groups exactly when resolution accepts it as grouped.
import SchemaQuery.Plan.Grouping
import SchemaQuery.Proofs.Plan.Redirect

/-!
# Terms over groups

Resolution checks that an output of a grouped block has one value per group, and
planning reads the output from the row of its group. The two walk over the term in
different ways: the check stops at the first column that it rejects, the reading
replaces keys and aggregates and then looks for columns that are left. What decides
is the same for both, the columns outside of keys and aggregates (`LooseColumn`), so
they accept the same terms: `checkGrouped_iff_regroup`.
-/

namespace SchemaQuery

/-! ## Loose columns -/

/-- The column `u` occurs in `t` outside of keys and aggregates. -/
inductive LooseColumn (keys : List Term) (u : Term) : Term → Prop where
  | self (hkey : Resolve.isKey keys u = false) (hcolumn : u.columnAlias?.isSome) :
      LooseColumn keys u u
  | part {t c : Term} (hkey : Resolve.isKey keys t = false) (hagg : t.isAggregate = false)
      (hc : c ∈ t.children) (h : LooseColumn keys u c) : LooseColumn keys u t

namespace LooseColumn

variable {keys : List Term} {t u : Term}

theorem not_key (h : LooseColumn keys u t) : Resolve.isKey keys t = false := by
  cases h with
  | self hkey => exact hkey
  | part hkey => exact hkey

theorem not_aggregate (h : LooseColumn keys u t) : t.isAggregate = false := by
  cases h with
  | self _ hcolumn =>
    cases t with
    | column => rfl
    | _ => cases hcolumn
  | part _ hagg => exact hagg

/-- A term that is neither a key nor an aggregate has the loose columns of its parts, and itself. -/
theorem iff_parts (hkey : Resolve.isKey keys t = false) (hagg : t.isAggregate = false) :
    LooseColumn keys u t ↔
      (u = t ∧ t.columnAlias?.isSome) ∨ ∃ c ∈ t.children, LooseColumn keys u c := by
  constructor
  · intro h
    cases h with
    | self _ hcolumn => exact .inl ⟨rfl, hcolumn⟩
    | part _ _ hc h => exact .inr ⟨_, hc, h⟩
  · rintro (⟨rfl, hcolumn⟩ | ⟨c, hc, h⟩)
    · exact .self hkey hcolumn
    · exact .part hkey hagg hc h

end LooseColumn

/-! ## The check -/

namespace Resolve

variable {keys : List Term}

theorem checkGroupedAll_ok {ts : List Term} :
    checkGroupedAll keys ts = .ok () ↔ ∀ t ∈ ts, checkGrouped keys t = .ok () := by
  induction ts with
  | nil => simp [checkGroupedAll]
  | cons t ts ih => simp [checkGroupedAll, except_seq_ok, ih]

theorem checkGroupedBranches_ok {bs : List (Term × Term)} :
    checkGroupedBranches keys bs = .ok () ↔
      ∀ t ∈ bs.flatMap fun (c, r) => [c, r], checkGrouped keys t = .ok () := by
  induction bs with
  | nil => simp [checkGroupedBranches]
  | cons b bs ih =>
    obtain ⟨c, r⟩ := b
    simp [checkGroupedBranches, except_seq_ok, ih]

theorem checkGrouped_of_key {t : Term} (h : isKey keys t = true) :
    checkGrouped keys t = .ok () := by
  unfold checkGrouped
  rw [h]
  rfl

theorem checkGrouped_of_aggregate {t : Term} (h : t.isAggregate = true) :
    checkGrouped keys t = .ok () := by
  cases t with
  | aggregate =>
    unfold checkGrouped
    exact ite_self _
  | _ => cases h

/-- A term that is neither a key nor an aggregate is grouped when it is no column and has grouped
    parts. -/
theorem checkGrouped_children {t : Term} (hkey : isKey keys t = false)
    (hagg : t.isAggregate = false) : checkGrouped keys t = .ok () ↔
      t.columnAlias? = none ∧ ∀ c ∈ t.children, checkGrouped keys c = .ok () := by
  rw [checkGrouped.eq_def, hkey]
  simp only [Bool.false_eq_true, if_false]
  cases t with
  | aggregate => cases hagg
  | column | literal | outputField | tableColumn | groupField =>
    simp [Term.columnAlias?, Term.children]
  | property e | unary _ e | cast e | nullAsFalse e => simp [Term.columnAlias?, Term.children]
  | binary op left right => simp [Term.columnAlias?, Term.children, except_seq_ok]
  | call _ args | list args => simp [Term.columnAlias?, Term.children, checkGroupedAll_ok]
  | case branches otherwise =>
    cases otherwise with
    | none => simp [Term.columnAlias?, Term.children, checkGroupedBranches_ok]
    | some e =>
      simp only [Term.columnAlias?, Term.children, except_seq_ok, checkGroupedBranches_ok,
        Option.toList_some, List.forall_mem_append, List.forall_mem_singleton, true_and]

/-- The check rejects a term for its loose columns. -/
theorem checkGrouped_iff_not_loose (t : Term) :
    checkGrouped keys t = .ok () ↔ ∀ u, ¬LooseColumn keys u t := by
  induction t using Term.childInduction with
  | step t ih =>
    cases hkey : isKey keys t with
    | true =>
      refine iff_of_true (checkGrouped_of_key hkey) fun u h => ?_
      rw [h.not_key] at hkey
      cases hkey
    | false =>
      cases hagg : t.isAggregate with
      | true =>
        refine iff_of_true (checkGrouped_of_aggregate hagg) fun u h => ?_
        rw [h.not_aggregate] at hagg
        cases hagg
      | false =>
        rw [checkGrouped_children hkey hagg]
        simp only [LooseColumn.iff_parts hkey hagg]
        constructor
        · rintro ⟨hcolumn, hparts⟩ u (⟨-, hself⟩ | ⟨c, hc, hloose⟩)
          · simp [hcolumn] at hself
          · exact (ih c hc).1 (hparts c hc) u hloose
        · intro h
          refine ⟨?_, fun c hc => (ih c hc).2 fun u hloose => h u (.inr ⟨c, hc, hloose⟩)⟩
          exact Option.not_isSome_iff_eq_none.1 fun hself => h t (.inl ⟨rfl, hself⟩)

end Resolve

/-! ## The reading -/

namespace Plan

variable {keys : List Term} {table : String}

theorem regroupTerms_eq (ts : List Term) :
    regroupTerms keys table ts = ts.map (regroupTerm keys table) := by
  induction ts with
  | nil => rfl
  | cons t ts ih => rw [regroupTerms, ih, List.map_cons]

theorem regroupBranches_eq (bs : List (Term × Term)) :
    regroupBranches keys table bs =
      bs.map fun (c, r) => (regroupTerm keys table c, regroupTerm keys table r) := by
  induction bs with
  | nil => rfl
  | cons b bs ih =>
    obtain ⟨c, r⟩ := b
    rw [regroupBranches, ih, List.map_cons]

/-- A key is read from the field of a key with the same value. -/
theorem regroupTerm_key {t : Term} (h : Resolve.isKey keys t = true) :
    ∃ i k, keys[i]? = some k ∧ k.sameValue t = true ∧
      regroupTerm keys table t = .groupField i t.type := by
  obtain ⟨k, hk, hsame⟩ := List.any_eq_true.1 h
  cases hidx : keys.findIdx? (·.sameValue t) with
  | none => exact absurd hsame (by simpa using List.findIdx?_eq_none_iff.1 hidx k hk)
  | some i =>
    obtain ⟨hi, hfirst, -⟩ := List.findIdx?_eq_some_iff_getElem.1 hidx
    refine ⟨i, keys[i], List.getElem?_eq_getElem hi, hfirst, ?_⟩
    unfold regroupTerm
    rw [hidx]

theorem findIdx?_not_key {t : Term} (h : Resolve.isKey keys t = false) :
    keys.findIdx? (·.sameValue t) = none := by
  rw [List.findIdx?_eq_none_iff]
  intro k hk
  simpa using List.any_eq_false.1 h k hk

/-- A term that is neither a key nor an aggregate is read part by part. -/
theorem regroupTerm_children {t : Term} (h : Resolve.isKey keys t = false)
    (hagg : t.isAggregate = false) :
    (regroupTerm keys table t).columnAlias? = t.columnAlias? ∧
      (regroupTerm keys table t).children = t.children.map (regroupTerm keys table) := by
  unfold regroupTerm
  rw [findIdx?_not_key h]
  cases t with
  | aggregate => cases hagg
  | call _ args | list args => exact ⟨rfl, regroupTerms_eq args⟩
  | case branches otherwise =>
    cases otherwise <;>
      simp [Term.columnAlias?, Term.children, regroupBranches_eq, List.flatMap_map,
        List.map_flatMap]
  | _ => exact ⟨rfl, rfl⟩

theorem regroupTerm_aggregate {m : AggregateRef} {args : List Term} {type : DataType}
    (h : Resolve.isKey keys (.aggregate m args type) = false) :
    regroupTerm keys table (.aggregate m args type) = .tableColumn table m.accumulator type := by
  unfold regroupTerm
  rw [findIdx?_not_key h]

theorem regroupTerm_column {t : Term} (h : Resolve.isKey keys t = false)
    (hcolumn : t.columnAlias?.isSome) : regroupTerm keys table t = t := by
  unfold regroupTerm
  rw [findIdx?_not_key h]
  cases t with
  | column => rfl
  | _ => cases hcolumn

/-- The columns that are left in a term read from groups are its loose ones. -/
theorem mem_regroupTerm_iff_loose (t : Term) {u : Term} :
    u ∈ (regroupTerm keys table t).subterms ∧ u.columnAlias?.isSome ↔ LooseColumn keys u t := by
  induction t using Term.childInduction with
  | step t ih =>
    cases hkey : Resolve.isKey keys t with
    | true =>
      obtain ⟨i, -, -, -, hi⟩ : ∃ i k, _ ∧ _ ∧ regroupTerm keys table t = .groupField i t.type :=
        regroupTerm_key hkey
      refine iff_of_false ?_ fun h => ?_
      · rintro ⟨hu, hcolumn⟩
        rw [hi] at hu
        obtain rfl := List.mem_singleton.1 hu
        cases hcolumn
      · rw [h.not_key] at hkey
        cases hkey
    | false =>
      cases hagg : t.isAggregate with
      | true =>
        obtain ⟨m, args, type, rfl⟩ : ∃ m args type, t = .aggregate m args type := by
          cases t with
          | aggregate m args type => exact ⟨m, args, type, rfl⟩
          | _ => cases hagg
        refine iff_of_false ?_ fun h => ?_
        · rintro ⟨hu, hcolumn⟩
          rw [regroupTerm_aggregate hkey] at hu
          obtain rfl := List.mem_singleton.1 hu
          cases hcolumn
        · rw [h.not_aggregate] at hagg
          cases hagg
      | false =>
        obtain ⟨hself, hchildren⟩ : _ ∧ (regroupTerm keys table t).children = _ :=
          regroupTerm_children hkey hagg
        rw [LooseColumn.iff_parts hkey hagg, Term.mem_subterms, hchildren]
        constructor
        · rintro ⟨rfl | ⟨c, hc, hu⟩, hcolumn⟩
          · rw [hself] at hcolumn
            exact .inl ⟨regroupTerm_column hkey hcolumn, hcolumn⟩
          · obtain ⟨c', hc', rfl⟩ := List.mem_map.1 hc
            exact .inr ⟨c', hc', (ih c' hc').1 ⟨hu, hcolumn⟩⟩
        · rintro (⟨rfl, hcolumn⟩ | ⟨c, hc, hloose⟩)
          · exact ⟨.inl (regroupTerm_column hkey hcolumn).symm, hcolumn⟩
          · obtain ⟨hu, hcolumn⟩ := (ih c hc).2 hloose
            exact ⟨.inr ⟨_, List.mem_map_of_mem hc, hu⟩, hcolumn⟩

/-- No column of a grouped term is read outside its group. -/
theorem regroupTerm_grouped (t : Term) (h : Resolve.checkGrouped keys t = .ok ()) :
    ∀ u ∈ (regroupTerm keys table t).subterms, u.columnAlias? = none := by
  intro u hu
  refine Option.not_isSome_iff_eq_none.1 fun hcolumn => ?_
  exact (Resolve.checkGrouped_iff_not_loose t).1 h u ((mem_regroupTerm_iff_loose t).1 ⟨hu, hcolumn⟩)

theorem ungrouped?_eq_none {u : Term} : ungrouped? u = none ↔ ¬u.columnAlias?.isSome := by
  cases u <;> simp [ungrouped?, Term.columnAlias?]

theorem regroup_ok_iff {t t' : Term} : regroup keys table t = .ok t' ↔
    t' = regroupTerm keys table t ∧ ∀ u, ¬LooseColumn keys u t := by
  have hnone : (regroupTerm keys table t).subterms.findSome? ungrouped? = none ↔
      ∀ u, ¬LooseColumn keys u t := by
    rw [List.findSome?_eq_none_iff]
    refine forall_congr' fun u => ?_
    rw [ungrouped?_eq_none, ← mem_regroupTerm_iff_loose t, not_and]
  rw [regroup, ← hnone]
  cases (regroupTerm keys table t).subterms.findSome? ungrouped? with
  | none => simp [eq_comm]
  | some e => simp

theorem regroup_of_grouped {t : Term} (h : Resolve.checkGrouped keys t = .ok ()) :
    regroup keys table t = .ok (regroupTerm keys table t) :=
  regroup_ok_iff.2 ⟨rfl, (Resolve.checkGrouped_iff_not_loose t).1 h⟩

theorem regroupOption_of_grouped {t : Option Term}
    (h : ∀ x ∈ t.toList, Resolve.checkGrouped keys x = .ok ()) :
    t.mapM (regroup keys table) = .ok (t.map (regroupTerm keys table)) :=
  except_optionM_eq_map fun x hx => regroup_of_grouped (h x (Option.mem_toList.2 hx))

theorem regroupOrder_of_grouped {ks : List SortKey}
    (h : ∀ k ∈ ks, Resolve.checkGrouped keys k.term = .ok ()) :
    regroupOrder keys table ks =
      .ok (ks.map fun k => { k with term := regroupTerm keys table k.term }) := by
  refine except_mapM_eq_map fun k hk => ?_
  rw [regroup_of_grouped (h k hk)]
  rfl

/-- The check and the reading accept the same terms, for every list of keys and every grouping
    table: those in which each column stands in a key or in an aggregate. -/
theorem checkGrouped_iff_regroup (keys : List Term) (table : String) (t : Term) :
    (Resolve.checkGrouped keys t = .ok () ↔ ∃ t', regroup keys table t = .ok t') ∧
      (Resolve.checkGrouped keys t = .ok () ↔ ∀ u, ¬LooseColumn keys u t) := by
  have hchecked : Resolve.checkGrouped keys t = .ok () ↔ _ := Resolve.checkGrouped_iff_not_loose t
  refine ⟨hchecked.trans ⟨fun hnone => ?_, ?_⟩, hchecked⟩
  · exact ⟨_, regroup_ok_iff.2 ⟨rfl, hnone⟩⟩
  · rintro ⟨t', ht'⟩
    exact (regroup_ok_iff.1 ht').2

end Plan

end SchemaQuery
