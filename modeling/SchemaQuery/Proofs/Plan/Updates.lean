-- SUMMARY: Which accumulator updates a block finds in the scopes.
import SchemaQuery.Plan.Query
import SchemaQuery.Proofs.Resolve.Layout

/-!
# Updates in sight

The updates of a block are looked up by the alias of its source, through all the
scopes around it. What is found was registered by a block whose source has the
same alias. When names are free of the two signs that keys and compound aliases
are made with, a lookup never meets anything else, and a compound alias
determines the leaves it is made of.
-/

namespace SchemaQuery

/-! ## Names -/

/-- A name without the signs that derived keys and compound aliases are made with. -/
def PlainName (n : String) : Prop := '#' ∉ n.toList ∧ '+' ∉ n.toList

instance (n : String) : Decidable (PlainName n) := inferInstanceAs (Decidable (_ ∧ _))

theorem PlainName.append {m n : String} (hm : PlainName m) (hn : PlainName n) :
    PlainName (m ++ n) := by
  simp only [PlainName, String.toList_append, List.mem_append, not_or]
  exact ⟨⟨hm.1, hn.1⟩, hm.2, hn.2⟩

theorem plainName_toString (n : Nat) : PlainName (toString n) := by
  exact ⟨fun h => absurd (isDigit_of_mem_toString h) (by decide),
    fun h => absurd (isDigit_of_mem_toString h) (by decide)⟩

/-- A compound of plain names has no number sign. -/
theorem hash_notMem_intercalate {ns : List String} (h : ∀ n ∈ ns, PlainName n) :
    '#' ∉ ("+".intercalate ns).toList := by
  induction ns with
  | nil => simp
  | cons n ns ih =>
    have hn := (h n (by simp)).1
    by_cases hns : ns = []
    · subst hns
      simpa using hn
    · rw [String.intercalate_cons_of_ne_nil hns]
      simp only [String.toList_append, List.mem_append, not_or]
      exact ⟨⟨hn, by decide⟩, ih fun m hm => h m (List.mem_cons_of_mem _ hm)⟩

/-- A compound of plain names tells what it is made of. -/
theorem intercalate_plain_injective {ns ms : List String} (hns : ns ≠ []) (hms : ms ≠ [])
    (hn : ∀ n ∈ ns, PlainName n) (hm : ∀ m ∈ ms, PlainName m)
    (h : "+".intercalate ns = "+".intercalate ms) : ns = ms := by
  have hsplit {xs : List String} (hne : xs ≠ []) (hx : ∀ x ∈ xs, PlainName x) :
      ("+".intercalate xs).toList.splitOn '+' = xs.map String.toList := by
    rw [String.toList_intercalate]
    refine List.splitOn_intercalate '+' ?_ (by simpa using hne)
    intro l hl
    obtain ⟨x, hmem, rfl⟩ := List.mem_map.1 hl
    exact (hx x hmem).2
  have hlists : ns.map String.toList = ms.map String.toList := by
    rw [← hsplit hns hn, ← hsplit hms hm, h]
  exact List.map_injective_iff.2 (fun _ _ => String.toList_inj.1) hlists

theorem refreshKey_injective {a b : String} (h : refreshKey a = refreshKey b) : a = b := by
  have hlists := congrArg String.toList h
  simp only [refreshKey, String.toList_append] at hlists
  exact String.toList_inj.1 (List.append_cancel_right hlists)

theorem hash_mem_refreshKey (a : String) : '#' ∈ (refreshKey a).toList := by
  simp [refreshKey]

/-! ## Lookups -/

/-- What a lookup finds is bound in the scope itself or in an older one. -/
theorem Scopes.lookup_cases {s : Scopes} (hs : s.Ordered) {id : Nat} (hid : id < s.all.length)
    (k : String) :
    ∃ r, s.lookup k id = .ok r ∧ ∀ symbol, r = some symbol →
      ∃ i ≤ id, s.findIn? k i = some symbol := by
  obtain ⟨rest, hchain, hlookup⟩ := lookup_eq_ok hs hid k
  obtain ⟨rest', hchain', holder⟩ := chain_eq_ok hs hid
  obtain rfl : rest = rest' := by simpa [hchain] using hchain'
  refine ⟨_, hlookup, fun symbol hsymbol => ?_⟩
  rcases Option.or_eq_some_iff.1 hsymbol with hown | ⟨-, hrest⟩
  · exact ⟨id, Nat.le_refl id, hown⟩
  · obtain ⟨i, hi, hfind⟩ := List.exists_of_findSome?_eq_some hrest
    exact ⟨i, Nat.le_of_lt (holder i hi), hfind⟩

namespace Sealed

variable {Named : String → Prop} {s : Scopes} {lo hi : Nat} {qs : List BoundQuery}

/-- Updates found under the key of an alias belong to a block over a source of that alias. -/
theorem owner (h : Sealed Named s lo hi qs) {i : Nat} (hlo : lo ≤ i) (hhi : i < hi) {a : String}
    {calls : List RefreshCall} (hfind : s.findIn? (refreshKey a) i = some (.refresh calls)) :
    ∃ b ∈ BoundQuery.blocksOf qs, b.scope = i ∧ b.source.aliasName = a ∧
      s.refreshOf b.scope b.source.aliasName = calls ∧ calls ≠ [] := by
  have howned := h.owned i hlo hhi _ _ hfind
  generalize hkey : refreshKey a = k at howned
  cases howned with
  | refresh b hb hid c cs =>
    obtain rfl := refreshKey_injective hkey
    refine ⟨b, hb, hid, rfl, ?_, by simp⟩
    simp only [Scopes.refreshOf, hid, hfind]

/-- With plain names nothing but updates is bound under the key of an alias. -/
theorem refresh_of_key (h : Sealed PlainName s lo hi qs) {i : Nat} (hlo : lo ≤ i) (hhi : i < hi)
    {a : String} {symbol : Symbol} (hfind : s.findIn? (refreshKey a) i = some symbol) :
    ∃ calls, symbol = .refresh calls := by
  have howned := h.owned i hlo hhi _ _ hfind
  generalize hkey : refreshKey a = k at howned
  cases howned with
  | cte name t => exact absurd hkey.symm (cteKey_ne_refreshKey name a)
  | source b hb hid p hp t =>
    obtain ⟨-, -, hbound⟩ := h.blocks b hb
    have hplain : ∀ n ∈ p.leafAliases, PlainName n := fun n hn =>
      hbound.named n (BoundSource.leafAliases_subset hp hn)
    have hhash := hash_mem_refreshKey a
    rw [hkey, hbound.composed p hp] at hhash
    exact absurd hhash (hash_notMem_intercalate hplain)
  | refresh b hb hid c cs => exact ⟨c :: cs, rfl⟩

/-- Under plain names two blocks over sources of one alias have the same leaves. -/
theorem leafAliases_eq (h : Sealed PlainName s lo hi qs) {b b' : Block}
    (hb : b ∈ BoundQuery.blocksOf qs) (hb' : b' ∈ BoundQuery.blocksOf qs)
    (halias : b.source.aliasName = b'.source.aliasName) :
    b.source.leafAliases = b'.source.leafAliases := by
  obtain ⟨-, -, hbound⟩ := h.blocks b hb
  obtain ⟨-, -, hbound'⟩ := h.blocks b' hb'
  refine intercalate_plain_injective b.source.leafAliases_ne_nil b'.source.leafAliases_ne_nil
    hbound.named hbound'.named ?_
  rw [← hbound.composed _ b.source.self_mem_parts, ← hbound'.composed _ b'.source.self_mem_parts,
    halias]

end Sealed

namespace BlockBound

variable {Named : String → Prop} {s : Scopes} {b : Block} {c : RefreshCall}

/-- A registered update has the arguments of an aggregate in an output of its block. -/
theorem aggregate_of_update (h : BlockBound Named s b)
    (hc : c ∈ s.refreshOf b.scope b.source.aliasName) :
    ∃ out ∈ b.outputs, ∃ m type, .aggregate m c.args type ∈ out.aggregates := by
  obtain ⟨out, hout, g, hg, hupdates⟩ := h.sound c hc
  cases g with
  | aggregate m args type =>
    obtain ⟨-, -, rfl, -⟩ := hupdates
    exact ⟨out, hout, m, type, hg⟩
  | _ => exact absurd hupdates id

/-- What occurs in an argument of a registered update occurs in an output of its block. -/
theorem update_occurs (h : BlockBound Named s b)
    (hc : c ∈ s.refreshOf b.scope b.source.aliasName) {t u : Term} (ht : t ∈ c.args)
    (hu : u ∈ t.subterms) : ∃ out ∈ b.outputs, u ∈ out.subterms := by
  obtain ⟨out, hout, m, type, hg⟩ := h.aggregate_of_update hc
  have hargs : u ∈ (Term.aggregate m c.args type).subterms :=
    Term.mem_subterms.2 (.inr ⟨t, ht, hu⟩)
  exact ⟨out, hout, Term.mem_subterms_trans hargs (Term.mem_aggregates.1 hg).1⟩

/-- The arguments of a registered update read the source of the block it was registered for. -/
theorem updates_read (h : BlockBound Named s b)
    (hc : c ∈ s.refreshOf b.scope b.source.aliasName) :
    ∀ t ∈ c.args, ∀ u ∈ t.subterms, u.ReadsFrom b.source.leaves := by
  intro t ht u hu
  obtain ⟨out, hout, hin⟩ := h.update_occurs hc ht hu
  exact h.reads out (List.mem_append_right _ hout) u hin

end BlockBound

namespace Plan

/-- A block finds updates over its own leaves. -/
theorem refreshCalls_of_sealed {s : Scopes} {qs : List BoundQuery} (hs : s.Ordered)
    (h : Sealed PlainName s 0 s.all.length qs) {b : BoundSelect} {order : List SortKey}
    (hb : b.block order ∈ BoundQuery.blocksOf qs) :
    ∃ calls, refreshCalls s b = .ok calls ∧ ∃ leaves : List (String × List Column),
      leaves.map (·.1) = b.source.leafAliases ∧
      ∀ c ∈ calls, ∀ t ∈ c.args, ∀ u ∈ t.subterms, u.ReadsFrom leaves := by
  obtain ⟨-, hid, hbound⟩ := h.blocks _ hb
  obtain ⟨r, hlookup, hfound⟩ := Scopes.lookup_cases hs hid (refreshKey b.source.aliasName)
  cases r with
  | none =>
    refine ⟨[], ?_, b.source.leaves, b.source.map_leaves, by simp⟩
    rw [refreshCalls, Scopes.tryResolve, show s.lookup _ b.scope = .ok none from hlookup]
    rfl
  | some symbol =>
    obtain ⟨i, hi, hfind⟩ := hfound symbol rfl
    have hlt : i < s.all.length := Nat.lt_of_le_of_lt hi hid
    obtain ⟨calls, rfl⟩ := h.refresh_of_key (Nat.zero_le i) hlt hfind
    obtain ⟨e, he, -, halias, hcalls, -⟩ := h.owner (Nat.zero_le i) hlt hfind
    refine ⟨calls, ?_, e.source.leaves, ?_, ?_⟩
    · rw [refreshCalls, Scopes.tryResolve,
        show s.lookup _ b.scope = .ok (some (.refresh calls)) from hlookup]
      rfl
    · rw [e.source.map_leaves]
      exact h.leafAliases_eq he hb halias
    · intro c hc
      rw [← hcalls] at hc
      exact (h.blocks e he).2.2.updates_read hc

end Plan

end SchemaQuery
