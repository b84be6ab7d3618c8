-- SUMMARY: The lineage of an entity type by distance: its walk ends, and it gives each ancestor once, nearest first.
import Mathlib.Data.List.Induction
import Mathlib.Data.List.Nodup
import Mathlib.Data.List.Perm.Subperm
import Mathlib.Order.Bounds.Basic
import SchemaQuery.Proofs.DataType.Lineage
import SchemaQuery.Proofs.DataType.Normal
import SchemaQuery.Proofs.First

/-!
# Ancestors

`ancestor? n` is the entity type that `n` base links lead to. The lineage of a name
has at position `k` the ancestor whose least distance is `k` (`lineage_getElem?_iff`),
so it lists every ancestor once and nearer ones first, even where the links run in
circles. A walk that adds the next definition until there is none or it was met
before ends with the lineage (`walk_ends`). Properties and interfaces are read off
the ancestors by their distance.
-/

namespace SchemaQuery

/-- The type of a property that the entity type itself declares. -/
def EntityType.declared? (e : EntityType) (property : String) : Option DataType :=
  (e.properties.find? (·.name = property)).map (·.type)

namespace TypeRegistry

variable {r : TypeRegistry} {name : String} {e : EntityType} {k : Nat}

/-! ## Registration -/

theorem entity?_register (r : TypeRegistry) (e : EntityType) (name : String) :
    (r.register e).entity? name = if name = e.name then some e else r.entity? name := by
  unfold entity? register
  rw [List.find?_append, find?_without]
  split
  · rename_i hname
    simp [hname]
  · rename_i hname
    simp [Ne.symm hname]

theorem ofList_concat (es : List EntityType) (e : EntityType) :
    ofList (es ++ [e]) = (ofList es).register e := by
  simp [ofList]

/-- A name has the definition that was registered last. -/
theorem entity?_ofList (es : List EntityType) (name : String) :
    (ofList es).entity? name = es.reverse.find? (·.name = name) := by
  induction es using List.reverseRecOn with
  | nil => rfl
  | append_singleton es e ih =>
    rw [ofList_concat, entity?_register, ih, List.reverse_concat, List.find?_cons]
    by_cases hname : name = e.name
    · simp [hname]
    · simp [hname, Ne.symm hname]

theorem length_entities_ofList_le (es : List EntityType) :
    (ofList es).entities.length ≤ es.length := by
  induction es using List.reverseRecOn with
  | nil => exact Nat.le_refl _
  | append_singleton es e ih =>
    have hwithout : (without (ofList es).entities e.name).length ≤ (ofList es).entities.length :=
      List.length_filter_le ..
    rw [ofList_concat, register, List.length_append, List.length_append]
    simp only [List.length_singleton]
    omega

/-! ## Ancestors by distance -/

/-- The entity type that so many base links lead to from a name. -/
def ancestor? (r : TypeRegistry) : Nat → String → Option EntityType
  | 0, name => r.entity? name
  | n + 1, name => (r.entity? name).bind fun e => e.base.bind (r.ancestor? n)

theorem ancestor?_succ_of_base {b : String} (he : r.entity? name = some e) (hb : e.base = some b)
    (n : Nat) : r.ancestor? (n + 1) name = r.ancestor? n b := by
  simp [ancestor?, he, hb]

/-- The ancestors are what the base links lead to. -/
theorem exists_ancestor?_iff : (∃ n, r.ancestor? n name = some e) ↔
    Relation.ReflTransGen r.Links name e.name ∧ r.entity? e.name = some e := by
  constructor
  · rintro ⟨n, hn⟩
    induction n generalizing name with
    | zero =>
      have hname : e.name = name := name_of_find? hn
      exact ⟨hname ▸ .refl, hname ▸ hn⟩
    | succ n ih =>
      obtain ⟨d, hd, hbase⟩ := Option.bind_eq_some_iff.1 hn
      obtain ⟨b, hb, hn⟩ := Option.bind_eq_some_iff.1 hbase
      obtain ⟨hlead, he⟩ := ih hn
      exact ⟨.head ⟨d, hd, hb⟩ hlead, he⟩
  · rintro ⟨hlead, he⟩
    induction hlead using Relation.ReflTransGen.head_induction_on with
    | refl => exact ⟨0, he⟩
    | head hlink _ ih =>
      obtain ⟨d, hd, hb⟩ := hlink
      obtain ⟨n, hn⟩ := ih
      exact ⟨n + 1, (ancestor?_succ_of_base hd hb n).trans hn⟩

theorem mem_lineage_iff_ancestor : e ∈ r.lineage name ↔ ∃ n, r.ancestor? n name = some e := by
  rw [mem_lineage_iff, exists_ancestor?_iff]

/-! ## Positions in the lineage -/

theorem ancestor?_of_walk {unmet : List EntityType} (hunmet : Agrees r unmet)
    (h : (lineageWithin unmet name)[k]? = some e) : r.ancestor? k name = some e := by
  fun_induction lineageWithin unmet name generalizing k with
  | case1 => cases h
  | case2 unmet name first hfound =>
    cases k with
    | zero =>
      obtain rfl := Option.some.inj h
      exact hunmet name _ hfound
    | succ k => cases h
  | case3 unmet name first hfound base hbase ih =>
    cases k with
    | zero =>
      obtain rfl := Option.some.inj h
      exact hunmet name _ hfound
    | succ k =>
      rw [ancestor?_succ_of_base (hunmet name first hfound) hbase]
      exact ih (hunmet.without _) h

theorem walk_names_nodup (unmet : List EntityType) (name : String) :
    ((lineageWithin unmet name).map (·.name)).Nodup := by
  fun_induction lineageWithin unmet name with
  | case1 => exact List.nodup_nil
  | case2 => exact List.nodup_singleton _
  | case3 unmet name first hfound base hbase ih =>
    refine List.nodup_cons.2 ⟨fun hmet => ?_, ih⟩
    -- what follows is taken from definitions of other names
    obtain ⟨e, he, hname⟩ := List.mem_map.1 hmet
    have hother := (List.mem_filter.1 (lineageWithin_subset _ _ he)).2
    exact absurd hname (by simpa using hother)

theorem lineage_names_nodup (r : TypeRegistry) (name : String) :
    ((r.lineage name).map (·.name)).Nodup :=
  walk_names_nodup r.entities name

theorem lineage_nodup (r : TypeRegistry) (name : String) : (r.lineage name).Nodup :=
  List.Nodup.of_map _ (r.lineage_names_nodup name)

/-- The member of the lineage at a position is reached by as many links and by no fewer. -/
theorem isLeast_of_getElem? (h : (r.lineage name)[k]? = some e) :
    IsLeast {n | r.ancestor? n name = some e} k := by
  refine ⟨ancestor?_of_walk (.self r) h, fun n hn => ?_⟩
  by_contra hlt
  have hk : k < (r.lineage name).length := (List.getElem?_eq_some_iff.1 h).1
  have hlength : n < (r.lineage name).length := by omega
  -- the member at the smaller distance would be the same one
  have hmember := ancestor?_of_walk (.self r) (List.getElem?_eq_getElem hlength)
  have hsame : (r.lineage name)[n]? = (r.lineage name)[k]? := by
    rw [h, List.getElem?_eq_getElem hlength, ← hmember]
    exact hn
  exact hlt ((List.getElem?_inj hlength (r.lineage_nodup name)).1 hsame).ge

theorem lineage_getElem?_iff :
    (r.lineage name)[k]? = some e ↔ IsLeast {n | r.ancestor? n name = some e} k := by
  refine ⟨isLeast_of_getElem?, fun hleast => ?_⟩
  have he : e ∈ r.lineage name := mem_lineage_iff_ancestor.2 ⟨k, hleast.1⟩
  obtain ⟨j, hj⟩ := List.mem_iff_getElem?.1 he
  obtain rfl : j = k := (isLeast_of_getElem? hj).unique hleast
  exact hj

theorem length_lineage_le (r : TypeRegistry) (name : String) :
    (r.lineage name).length ≤ r.entities.length :=
  (List.subperm_of_subset (r.lineage_nodup name) (lineageWithin_subset _ _)).length_le

/-! ## The walk ends -/

/-- A walk along the base links: the definitions met so far, and the next one. -/
structure Walk where
  met : List EntityType
  next : Option EntityType

namespace Walk

def start (r : TypeRegistry) (name : String) : Walk := ⟨[], r.entity? name⟩

/-- One round: a definition met before ends the walk, a new one is added and gives the next. -/
def round (r : TypeRegistry) (w : Walk) : Walk :=
  match w.next with
  | none => w
  | some e =>
    if w.met.any (·.name = e.name) then ⟨w.met, none⟩
    else ⟨w.met ++ [e], e.base.bind r.entity?⟩

/-- The unmet definitions are those of the registry that the walk has not met. -/
def Unmet (r : TypeRegistry) (met unmet : List EntityType) : Prop :=
  ∀ name, unmet.find? (·.name = name) = if met.any (·.name = name) then none else r.entity? name

theorem Unmet.meet {met unmet : List EntityType} (h : Unmet r met unmet) (e : EntityType) :
    Unmet r (met ++ [e]) (without unmet e.name) := by
  intro name
  rw [find?_without, h name]
  by_cases hname : name = e.name
  · simp [hname]
  · simp [hname, Ne.symm hname]

theorem Unmet.found {met unmet : List EntityType} (h : Unmet r met unmet)
    (hfound : unmet.find? (·.name = name) = some e) :
    met.any (·.name = e.name) = false ∧ r.entity? name = some e := by
  have hname := h name
  rw [hfound] at hname
  rw [name_of_find? hfound]
  split at hname
  · cases hname
  · rename_i hmet
    exact ⟨by simpa using hmet, hname.symm⟩

theorem round_of_new {met : List EntityType} (hnew : met.any (·.name = e.name) = false) :
    round r ⟨met, some e⟩ = ⟨met ++ [e], e.base.bind r.entity?⟩ := by
  simp only [round, hnew, Bool.false_eq_true, if_false]

/-- From any point on, the walk meets what the lineage has among the unmet definitions, one a round,
    and may need one more round to see that it is back where it was. -/
theorem ends_within {met unmet : List EntityType} (h : Unmet r met unmet) (name : String) :
    ∃ n ≤ (lineageWithin unmet name).length + 1,
      (round r)^[n] ⟨met, r.entity? name⟩ = ⟨met ++ lineageWithin unmet name, none⟩ := by
  fun_induction lineageWithin unmet name generalizing met with
  | case1 unmet name hnone =>
    cases he : r.entity? name with
    | none => exact ⟨0, Nat.zero_le _, by simp⟩
    | some e =>
      have hmet : met.any (·.name = e.name) := by
        have hfind := h name
        rw [hnone, he] at hfind
        rw [name_of_find? he]
        by_contra hmet
        simp [hmet] at hfind
      exact ⟨1, Nat.le_refl _, by simp [round, hmet]⟩
  | case2 unmet name e hfound hbase =>
    obtain ⟨hnew, he⟩ := h.found hfound
    refine ⟨1, Nat.le_succ _, ?_⟩
    rw [he, Function.iterate_one, round_of_new hnew, hbase]
    rfl
  | case3 unmet name e hfound base hbase ih =>
    obtain ⟨hnew, he⟩ := h.found hfound
    obtain ⟨n, hn, hrun⟩ := ih (h.meet e)
    refine ⟨n + 1, Nat.succ_le_succ hn, ?_⟩
    rw [he, Function.iterate_succ_apply, round_of_new hnew, hbase, Option.bind_some, hrun,
      List.append_assoc, List.singleton_append]

end Walk

/-- The walk from a name ends, and has then met the lineage. -/
theorem walk_ends (r : TypeRegistry) (name : String) :
    ∃ n ≤ r.entities.length + 1,
      (Walk.round r)^[n] (Walk.start r name) = ⟨r.lineage name, none⟩ := by
  have hstart : Walk.Unmet r [] r.entities := fun _ => rfl
  obtain ⟨n, hn, hrun⟩ := Walk.ends_within hstart name
  exact ⟨n, hn.trans (Nat.succ_le_succ (r.length_lineage_le name)), hrun⟩

/-! ## Properties and interfaces -/

theorem property?_eq_findSome? (r : TypeRegistry) (name property : String) :
    r.property? name property = (r.lineage name).findSome? (·.declared? property) := by
  unfold property?
  rw [List.find?_flatMap, List.map_findSome?]
  rfl

/-- The ancestor at the distance declares the property with the type, and no nearer one has it. -/
def DeclaredAt (r : TypeRegistry) (name property : String) (k : Nat) (t : DataType) : Prop :=
  FirstAt (r.ancestor? · name) (·.declared? property) k t

theorem declaredAt_of_findSome? {property : String} {t : DataType}
    (h : (r.lineage name).findSome? (·.declared? property) = some t) :
    ∃ k, r.DeclaredAt name property k t := by
  obtain ⟨nearer, e, farther, hlineage, ht, hnearer⟩ := List.findSome?_eq_some_iff.1 h
  have he : (r.lineage name)[nearer.length]? = some e := by simp [hlineage]
  refine ⟨nearer.length, ⟨e, ancestor?_of_walk (.self r) he, ht⟩, fun j hj d hd => ?_⟩
  have hj' : (r.lineage name)[j]? = some nearer[j] := by
    rw [hlineage, List.getElem?_append_left hj, List.getElem?_eq_getElem hj]
  obtain rfl : nearer[j] = d :=
    Option.some.inj ((ancestor?_of_walk (.self r) hj').symm.trans hd)
  exact hnearer _ (List.getElem_mem hj)

theorem property?_iff {property : String} {t : DataType} :
    r.property? name property = some t ↔ ∃ k, r.DeclaredAt name property k t := by
  rw [property?_eq_findSome?]
  refine findSome?_iff_firstAt (fun k e he => ?_) fun _ => declaredAt_of_findSome?
  exact mem_lineage_iff_ancestor.2 ⟨k, he⟩

theorem implements_entity_iff {interface : String} :
    r.implements (.entity name) interface ↔
      ∃ n e, r.ancestor? n name = some e ∧ interface ∈ e.interfaces := by
  change ((r.lineage name).any fun e => e.interfaces.contains interface) = true ↔ _
  simp only [List.any_eq_true, mem_lineage_iff_ancestor, List.contains_iff_mem]
  constructor
  · rintro ⟨e, ⟨n, hn⟩, he⟩
    exact ⟨n, e, hn, he⟩
  · rintro ⟨n, e, hn, he⟩
    exact ⟨e, ⟨n, hn⟩, he⟩

/-! ## Registries of any definitions -/

/-- A chain of entity types has the ancestors of a name, each once and placed by its distance. -/
structure Ancestry (r : TypeRegistry) (name : String) (chain : List EntityType) : Prop where
  nodup : (chain.map (·.name)).Nodup
  reached : ∀ e, e ∈ chain ↔
    Relation.ReflTransGen r.Links name e.name ∧ r.entity? e.name = some e
  nearestFirst : ∀ k e, chain[k]? = some e ↔ IsLeast {n | r.ancestor? n name = some e} k

/-- Whatever was registered, names have their last definitions, and the walk along the base links of
    these ends with the ancestors of a name. A property has the type that its nearest ancestor
    declares for it, and an interface is implemented when an ancestor lists it. -/
theorem lineage_complete (es : List EntityType) (name : String) :
    (∀ n, (ofList es).entity? n = es.reverse.find? (·.name = n)) ∧
      (∃ n ≤ es.length + 1, (Walk.round (ofList es))^[n] (.start (ofList es) name) =
        ⟨(ofList es).lineage name, none⟩) ∧
      (ofList es).Ancestry name ((ofList es).lineage name) ∧
      (∀ property t, (ofList es).property? name property = some t ↔
        ∃ k, (ofList es).DeclaredAt name property k t) ∧
      ∀ interface, (ofList es).implements (.entity name) interface ↔
        ∃ n e, (ofList es).ancestor? n name = some e ∧ interface ∈ e.interfaces := by
  obtain ⟨n, hn, hrun⟩ := (ofList es).walk_ends name
  refine ⟨entity?_ofList es, ⟨n, ?_, hrun⟩, ?_, ?_, ?_⟩
  · exact hn.trans (Nat.succ_le_succ (length_entities_ofList_le es))
  · exact {
      nodup := lineage_names_nodup _ name
      reached := fun _ => mem_lineage_iff
      nearestFirst := fun _ _ => lineage_getElem?_iff }
  · exact fun _ _ => property?_iff
  · exact fun _ => implements_entity_iff

-- A redefined base leads into a circle, which is walked once.
example : ((ofList [⟨"Clerk", some "Staff", [], []⟩, ⟨"Staff", none, [], []⟩,
    ⟨"Person", some "Staff", [], []⟩, ⟨"Staff", some "Person", [], []⟩]).lineage "Clerk").map
      (·.name) = ["Clerk", "Staff", "Person"] := by
  decide +kernel

end TypeRegistry

end SchemaQuery
