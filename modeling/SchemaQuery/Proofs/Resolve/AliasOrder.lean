-- SUMMARY: The output that a name in the order sorts by, when it is the alias of an item.
import SchemaQuery.Proofs.Resolve.Query
import SchemaQuery.Sample.Catalog
import SchemaQuery.Sample.Query

/-!
# Order by an alias

A bare name in the order that is the alias of an item of the projection stands for
the output of that item. Items and fields are lists of their own, since a wildcard
has any number of fields: field `i` is that of item `i` as long as no wildcard is
before it, and behind a wildcard the field is looked up by name. An earlier field
of the same name is then taken in place of the item (`shadow?`). The main statement
of this module is `bindQuery_aliasOrder`.
-/

namespace SchemaQuery.Resolve

variable {env : Env} {ctx : Context} {items : List SelectItem} {parts : List (List Field)}
  {name : String} {i : Nat} {s s' : State}

/-! ## The fields of an item -/

/-- The item has these fields in a run from some state. -/
def BindsItem (env : Env) (ctx : Context) (item : SelectItem) (fields : List Field) : Prop :=
  ∃ u u', bindItem env ctx item u = .ok fields u'

namespace BindsItem

variable {item : SelectItem} {fields : List Field}

theorem expr {e : Expr} (h : BindsItem env ctx (.expr e) fields) :
    ∃ t, fields = [⟨e.render, t⟩] := by
  obtain ⟨u, u', h⟩ := h
  simp only [bindItem, run_bind_ok, run_pure_ok] at h
  obtain ⟨t, -, -, rfl, -⟩ := h
  exact ⟨t, rfl⟩

theorem aliased {e : Expr} {a : String} (h : BindsItem env ctx (.aliased e a) fields) :
    ∃ t, fields = [⟨a, t⟩] ∧ ∃ u u', bindExpr env e ctx u = .ok t u' := by
  obtain ⟨u, u', h⟩ := h
  simp only [bindItem, run_bind_ok, run_pure_ok] at h
  obtain ⟨t, v, ht, rfl, rfl⟩ := h
  exact ⟨t, rfl, u, v, ht⟩

theorem length_eq_one (h : BindsItem env ctx item fields) (hplain : isWildcard item = false) :
    fields.length = 1 := by
  cases item with
  | expr e =>
    obtain ⟨t, rfl⟩ := h.expr
    rfl
  | aliased e a =>
    obtain ⟨t, rfl, -⟩ := h.aliased
    rfl
  | qualifiedWildcard q => cases hplain
  | wildcard => cases hplain

/-- A field has a name without its item having that alias in two ways. -/
theorem of_not_hasAlias {f : Field} (h : BindsItem env ctx item fields) (hf : f ∈ fields)
    (hname : f.name = name) (halias : hasAlias name item = false) :
    isWildcard item = true ∨ ∃ e, item = .expr e ∧ e.render = name := by
  cases item with
  | expr e =>
    obtain ⟨t, rfl⟩ := h.expr
    obtain rfl := List.mem_singleton.1 hf
    exact .inr ⟨e, rfl, hname⟩
  | aliased e a =>
    obtain ⟨t, rfl, -⟩ := h.aliased
    obtain rfl := List.mem_singleton.1 hf
    exact absurd hname (by simpa [hasAlias] using halias)
  | qualifiedWildcard q => exact .inl rfl
  | wildcard => exact .inl rfl

end BindsItem

theorem bindFields_parts {fields : List Field} (h : bindFields env ctx items s = .ok fields s') :
    ∃ parts, items.mapM (bindItem env ctx) s = .ok parts s' ∧ fields = parts.flatten := by
  simp only [bindFields, run_bind_ok, run_pure_ok] at h
  obtain ⟨parts, u, hparts, rfl, rfl⟩ := h
  exact ⟨parts, hparts, rfl⟩

/-! ## Items and fields -/

/-- As many fields as items are before item `i` when none of these is a wildcard. -/
theorem length_flatten_take (h : List.Forall₂ (BindsItem env ctx) items parts)
    (hplain : (items.take i).any isWildcard = false) (hi : i ≤ items.length) :
    (parts.take i).flatten.length = i := by
  have hone : ∀ part ∈ parts.take i, part.length = 1 := by
    intro part hpart
    obtain ⟨item, hitem, hbinds⟩ := (exists_of_forall₂ (List.forall₂_take i h)).2 part hpart
    exact hbinds.length_eq_one (by simpa using List.any_eq_false.1 hplain item hitem)
  rw [List.length_flatten, List.map_congr_left hone, List.map_const', List.sum_replicate_nat,
    List.length_take, ← h.length_eq, Nat.min_eq_left hi, Nat.mul_one]

/-- The earlier field that a wildcard before item `i` puts in place of the item's own. -/
def shadow? (items : List SelectItem) (parts : List (List Field)) (i : Nat) (name : String) :
    Option Field :=
  if (items.take i).any isWildcard then (parts.take i).flatten.find? (·.name = name) else none

/-- The field found for an alias is that of its first item, or the one that shadows it. -/
theorem aliasedField?_flatten {t : Term} (h : List.Forall₂ (BindsItem env ctx) items parts)
    (hi : items.findIdx? (hasAlias name) = some i) (hpart : parts[i]? = some [⟨name, t⟩]) :
    aliasedField? items parts.flatten name =
      some ((shadow? items parts i name).getD ⟨name, t⟩) := by
  have hsplit : parts.flatten =
      (parts.take i).flatten ++ ⟨name, t⟩ :: (parts.drop (i + 1)).flatten := by
    conv_lhs => rw [← List.take_append_drop i parts, List.drop_eq_getElem?_toList_append, hpart]
    simp
  have hlt : i < items.length := (List.findIdx?_eq_some_iff_getElem.1 hi).1
  unfold aliasedField? shadow?
  rw [hi, hsplit]
  dsimp only
  split
  · -- behind a wildcard the first field of the name is taken
    rw [List.find?_append, List.find?_cons_of_pos (by simp)]
    cases (parts.take i).flatten.find? (·.name = name) with
    | none => rfl
    | some f => rfl
  · -- else the items before have one field each, and the positions agree
    rename_i hplain
    have hlength := length_flatten_take h (by simpa using hplain) (Nat.le_of_lt hlt)
    rw [List.getElem?_append_right (by omega), hlength]
    simp

/-- A shadowing field comes from an earlier item that does not have the alias. -/
theorem shadow?_origin {f : Field} (h : List.Forall₂ (BindsItem env ctx) items parts)
    (hi : items.findIdx? (hasAlias name) = some i) (hf : shadow? items parts i name = some f) :
    f.name = name ∧ ∃ j < i, ∃ item part, items[j]? = some item ∧ parts[j]? = some part ∧
      f ∈ part ∧ (isWildcard item = true ∨ ∃ e, item = .expr e ∧ e.render = name) := by
  unfold shadow? at hf
  split at hf
  case isFalse => cases hf
  have hname : f.name = name := by simpa using List.find?_some hf
  obtain ⟨part, hpart, hmem⟩ := List.mem_flatten.1 (List.mem_of_find?_eq_some hf)
  obtain ⟨j, hj, hget⟩ := List.mem_take_iff_getElem.1 hpart
  have hlength := h.length_eq
  have hji : j < i := by omega
  have hbinds : BindsItem env ctx items[j] parts[j] := h.get (by omega) (by omega)
  obtain ⟨hlt, -, hfirst⟩ := List.findIdx?_eq_some_iff_getElem.1 hi
  have halias : hasAlias name items[j] = false := by simpa using hfirst j hji
  exact ⟨hname, j, hji, items[j], parts[j], List.getElem?_eq_getElem _,
    List.getElem?_eq_getElem _, hget ▸ hmem, hbinds.of_not_hasAlias (hget ▸ hmem) hname halias⟩

/-! ## The order of a query -/

/-- The key sorts by the field of item `i`, which is the first with the alias, or by an earlier
    field of that name that shadows it. Such a field is a column of a wildcard or an item without
    an alias that reads as the name. -/
structure SortsByItem (env : Env) (ctx : Context) (items : List SelectItem)
    (parts : List (List Field)) (name : String) (i : Nat) (e : Expr) (t : Term) (key : SortKey) :
    Prop where
  item : items[i]? = some (.aliased e name)
  field : parts[i]? = some [⟨name, t⟩]
  bound : ∃ u u', bindExpr env e ctx u = .ok t u'
  own : shadow? items parts i name = none → key.term = t
  shadowed : ∀ f, shadow? items parts i name = some f → key.term = f.term ∧ f.name = name ∧
    ∃ j < i, ∃ w part, items[j]? = some w ∧ parts[j]? = some part ∧ f ∈ part ∧
      (isWildcard w = true ∨ ∃ e', w = .expr e' ∧ e'.render = name)

/-- The item found for an alias is bound to one field of that name. -/
theorem exists_aliased_field (h : List.Forall₂ (BindsItem env ctx) items parts)
    (hi : items.findIdx? (hasAlias name) = some i) :
    ∃ e t, items[i]? = some (.aliased e name) ∧ parts[i]? = some [⟨name, t⟩] ∧
      ∃ u u', bindExpr env e ctx u = .ok t u' := by
  obtain ⟨hlt, halias, -⟩ := List.findIdx?_eq_some_iff_getElem.1 hi
  have hlt' : i < parts.length := h.length_eq ▸ hlt
  have hbinds : BindsItem env ctx items[i] parts[i] := h.get hlt hlt'
  cases hitem : items[i] with
  | aliased e a =>
    obtain rfl : a = name := by simpa [hitem, hasAlias] using halias
    obtain ⟨t, hfields, hbound⟩ := (hitem ▸ hbinds).aliased
    exact ⟨e, t, hitem ▸ List.getElem?_eq_getElem hlt,
      hfields ▸ List.getElem?_eq_getElem hlt', hbound⟩
  | expr e => simp [hitem, hasAlias] at halias
  | qualifiedWildcard q => simp [hitem, hasAlias] at halias
  | wildcard => simp [hitem, hasAlias] at halias

theorem bindSortKey_sortsByItem {octx : Context} {item : OrderItem} {key : SortKey}
    (h : List.Forall₂ (BindsItem env ctx) items parts)
    (hkey : bindSortKey env octx items parts.flatten item s = .ok key s')
    (hname : item.expr = .identifier name) (hi : items.findIdx? (hasAlias name) = some i) :
    key.direction = item.direction ∧ ∃ e t, SortsByItem env ctx items parts name i e t key := by
  obtain ⟨e, t, hitem, hfield, hbound⟩ := exists_aliased_field h hi
  simp only [bindSortKey, hname, aliasedField?_flatten h hi hfield, run_pure_ok] at hkey
  obtain ⟨rfl, rfl⟩ := hkey
  refine ⟨rfl, e, t, hitem, hfield, hbound, fun hnone => ?_, fun f hf => ?_⟩
  · rw [hnone, Option.getD_none]
  · rw [hf, Option.getD_some]
    exact ⟨rfl, shadow?_origin h hi hf⟩

/-- The items of the projection are bound one after the other to the parts of the fields, and every
    key of the order whose name is an alias sorts by the first item with that alias. -/
def OrderedByAliases (env : Env) (sel : Select) (orderBy : List OrderItem) (b : BoundSelect)
    (order : List SortKey) : Prop :=
  ∃ keys parts u u',
    let ctx := (((Context.ofScope b.scope).withAlias b.source.aliasName).withGroupBy
      keys).withClause .select
    sel.projection.mapM (bindItem env ctx) u = .ok parts u' ∧ b.fields = parts.flatten ∧
    List.Forall₂ (fun item key => ∀ name i, item.expr = .identifier name →
      sel.projection.findIdx? (hasAlias name) = some i → key.direction = item.direction ∧
        ∃ e t, SortsByItem env ctx sel.projection parts name i e t key) orderBy order

/-- A name in the order of a select block that is the alias of an item sorts by the output of the
    first such item, unless a wildcard is before the item and an earlier field has that name: then
    it sorts by the earlier field. -/
theorem bindQuery_aliasOrder {sel : Select} {orderBy : List OrderItem} {skip take : Option Nat}
    {ctes : List Cte} {q : BoundQuery}
    (h : bindQuery env ⟨.select sel, orderBy, skip, take, ctes⟩ s = .ok q s') :
    ∃ b, q.body = .select b ∧ OrderedByAliases env sel orderBy b q.orderBy := by
  simp only [bindQuery, run_bind_ok, run_readScopes_ok, run_pure_ok] at h
  obtain ⟨scope, _, -, bctes, s₁, -, ⟨body, order, output⟩, s₂, hbody, rfl, rfl⟩ := h
  obtain ⟨distinct, projection, source, filter, groupBy, having⟩ := sel
  cases source with
  | none => simp [bindBody] at hbody
  | some source =>
    simp only [bindBody, run_bind_ok, run_pure_ok, Prod.mk.injEq] at hbody
    obtain ⟨src, s₃, -, ⟨b, order'⟩, s₄, hblock, ⟨rfl, rfl, -⟩, rfl⟩ := hbody
    obtain ⟨keys, u₁, u₂, u₃, u₄, -, -, hfields, -, horder, -, rfl, rfl, -⟩ :=
      run_bindBlock_ok hblock
    obtain ⟨parts, hparts, hflatten⟩ := bindFields_parts hfields
    rw [hflatten] at horder
    refine ⟨b, rfl, keys, parts, u₂, u₃, hparts, hflatten, ?_⟩
    refine (forall₂_of_run_mapM horder).imp fun item key hkey name i hname hi => ?_
    obtain ⟨v, v', hkey⟩ := hkey
    exact bindSortKey_sortsByItem (forall₂_of_run_mapM hparts) hkey hname hi

/-- Stands for `City as Town, *, Country as City from #A.entities()` -/
def shadowedCity : Select :=
  (((Select.empty.addAliased (.identifier "City") "Town").addAll).addAliased
    (.identifier "Country") "City").withSource (.ofSchema "A" "entities" [])

/-- Stands for `order by Town, City desc` -/
def byTownAndCity : List OrderItem := [⟨.identifier "Town", .asc⟩, ⟨.identifier "City", .desc⟩]

/-- Both keys are the column `City`, which is among the columns of the wildcard: the second is not
    the output `Country` that has the alias. -/
theorem bindQuery_aliasOrder_shadowed :
    ∃ q s s' b, bindQuery ⟨Sample.catalog, default⟩
        ⟨.select shadowedCity, byTownAndCity, none, none, []⟩ s = .ok q s' ∧
      q.orderBy.map (·.term.render) = ["City", "City"] ∧ q.body = .select b ∧
      OrderedByAliases ⟨Sample.catalog, default⟩ shadowedCity byTownAndCity b q.orderBy := by
  obtain ⟨a, requests, h, hcheck⟩ := exists_ok_of_check (analyze ⟨Sample.catalog, default⟩
    ⟨.select shadowedCity, byTownAndCity, none, none, []⟩)
    (fun a => decide (a.query.orderBy.map (·.term.render) = ["City", "City"])) (by decide +kernel)
  obtain ⟨s', hrun, -⟩ := run_analyze_ok h
  obtain ⟨b, hb, horder⟩ := bindQuery_aliasOrder hrun
  exact ⟨a.query, _, s', b, hrun, of_decide_eq_true hcheck, hb, horder⟩

end SchemaQuery.Resolve
