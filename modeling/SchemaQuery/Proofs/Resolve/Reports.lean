-- SUMMARY: Steps of resolution on tidy scopes: what they leave, and the errors they may end with.
import SchemaQuery.Proofs.Scope.Changes
import SchemaQuery.Resolve.Call

/-!
# Reports

An error is internal if it speaks of the scopes and not of the query: a scope that is
not there, or a symbol of another kind than a name should have. Resolution works on
tidy scopes: the cursor is the innermost of the open scopes, and the key of a symbol
tells its kind. On tidy scopes lookups find a chain, and a symbol of the wrong kind
needs a name that is also the key of updates.

`Steady` says of a step that it goes from tidy scopes to tidy scopes, and that it ends
in no other internal error. It is closed under the ways in which steps are combined.
-/

namespace SchemaQuery

/-- The error speaks of the scopes, not of the query. -/
def ResolveError.isInternal : ResolveError → Bool
  | .invalidScope _ | .unexpectedSymbolKind .. => true
  | _ => false

namespace Resolve

variable {α β : Type}

/-! ## Computations -/

/-- A computation gives a result with the property `Q` or fails with an error with the property
    `E`. -/
def Gives (E : ResolveError → Prop) (x : Except ResolveError α) (Q : α → Prop) : Prop :=
  match x with
  | .ok a => Q a
  | .error e => E e

namespace Gives

variable {E E' : ResolveError → Prop} {x : Except ResolveError α} {Q Q' : α → Prop}

theorem pure {a : α} (h : Q a) : Gives E (pure a) Q := h

theorem throw {e : ResolveError} (h : E e) : Gives E (throw e : Except ResolveError α) Q := h

theorem mono (h : Gives E x Q) (hE : ∀ e, E e → E' e) (hQ : ∀ a, Q a → Q' a) : Gives E' x Q' := by
  cases x with
  | ok a => exact hQ a h
  | error e => exact hE e h

theorem bind {f : α → Except ResolveError β} {R : β → Prop} (h : Gives E x Q)
    (hf : ∀ a, Q a → Gives E (f a) R) : Gives E (x >>= f) R := by
  cases x with
  | ok a => exact hf a h
  | error e => exact h

theorem mapM {f : α → Except ResolveError β} {R : β → Prop} {as : List α}
    (h : ∀ a ∈ as, Gives E (f a) R) : Gives E (as.mapM f) fun bs => ∀ b ∈ bs, R b := by
  induction as with
  | nil => exact Gives.pure (by simp)
  | cons a as ih =>
    rw [List.mapM_cons]
    refine (h a (List.mem_cons_self ..)).bind fun b hb => ?_
    refine (ih fun a ha => h a (List.mem_cons_of_mem _ ha)).bind fun bs hbs => ?_
    exact Gives.pure (List.forall_mem_cons.2 ⟨hb, hbs⟩)

theorem foldlM {f : β → α → Except ResolveError β} {R : β → Prop} {as : List α} {b : β} (h : R b)
    (hf : ∀ b, ∀ a ∈ as, R b → Gives E (f b a) R) : Gives E (as.foldlM f b) R := by
  induction as generalizing b with
  | nil => exact Gives.pure h
  | cons a as ih =>
    rw [List.foldlM_cons]
    refine (hf b a (List.mem_cons_self ..) h).bind fun b' hb' => ?_
    exact ih hb' fun b a ha => hf b a (List.mem_cons_of_mem _ ha)

end Gives

/-- A computation that fails with no internal error. -/
def Benign (x : Except ResolveError α) : Prop :=
  Gives (fun e => e.isInternal = false) x fun _ => True

/-! ## Tidy scopes -/

section Tidy

variable (Named : String → Prop)

/-- The key of a symbol tells its kind. The names of tables are among the given ones, but for the
    marks of common table expressions. -/
def FitsKey (k : String) : Symbol → Prop
  | .table t => (Named k ∨ ∃ n, k = cteKey n) ∧ ∀ a ∈ t.compoundTables, Named a
  | .refresh _ => ∃ a, k = refreshKey a

/-- The scopes `ids` are open, innermost first, and symbols fit their keys. -/
structure Tidy (ids : List Nat) (s : Scopes) : Prop where
  current : s.current = ids.head?
  path : ∀ c, ids.head? = some c → s.Path c ids none
  fits : s.AllBindings (FitsKey Named)

/-- An error that resolution may end with: it is not internal, or a name is the key of updates. -/
structure Reportable (e : ResolveError) : Prop where
  scope : ∀ what, e ≠ .invalidScope what
  kind : ∀ a kind, e = .unexpectedSymbolKind a kind → ∃ b, Named (refreshKey b)

variable {Named}

theorem Reportable.of_not_internal {e : ResolveError} (h : e.isInternal = false) :
    Reportable Named e := by
  refine ⟨?_, ?_⟩
  · rintro what rfl
    cases h
  · rintro a kind rfl
    cases h

theorem Benign.gives {x : Except ResolveError α} (h : Benign x) :
    Gives (Reportable Named) x fun _ => True :=
  h.mono (fun _ => .of_not_internal) fun _ _ => trivial

/-- A symbol of the wrong kind under a name is under the key of updates. -/
theorem Reportable.of_kind {a kind b : String} (h : Named (refreshKey b)) :
    Reportable Named (.unexpectedSymbolKind a kind) where
  scope := fun _ h => by cases h
  kind := fun _ _ _ => ⟨b, h⟩

namespace Tidy

variable {c : Nat} {ids : List Nat} {s : Scopes} {k : String}

theorem empty : Tidy Named [] .empty where
  current := rfl
  path := fun _ h => by cases h
  fits := .empty

theorem chain (h : Tidy Named (c :: ids) s) : s.chain c = .ok (c :: ids) :=
  Scopes.chain_of_path (h.path c rfl)

theorem requireCurrent (h : Tidy Named (c :: ids) s) : s.requireCurrent = .ok c := by
  simp [Scopes.requireCurrent, Scopes.currentOr, h.current]

theorem enter (h : Tidy Named ids s) (kind : ScopeKind) (name : String) :
    Tidy Named (s.all.length :: ids) (s.entered kind name) := by
  refine ⟨rfl, fun c hc => ?_, h.fits.enter kind name⟩
  cases hc
  have hparent : (s.entered kind name).parentOf s.all.length = ids.head? := by
    rw [Scopes.enter_parentOf, if_pos rfl, h.current]
  cases ids with
  | nil => exact .root (by simp) hparent
  | cons p ids => exact .outer hparent ((h.path p rfl).append rfl (by simp))

theorem leave (h : Tidy Named (c :: ids) s) :
    Gives (Reportable Named) s.leave (Tidy Named ids) := by
  have hpath := h.path c rfl
  have hleave := Scopes.leave_eq_ok_iff.2 ⟨c, h.current, hpath.start_lt, rfl⟩
  rw [hleave]
  -- the scope around the innermost one is the next open scope
  cases hpath with
  | root _ hroot => exact ⟨hroot, fun _ hc => absurd hc (by simp), h.fits.of_all_eq rfl⟩
  | outer hparent hrest =>
    obtain ⟨rest, rfl⟩ := hrest.head
    refine ⟨hparent, fun p hp => ?_, h.fits.of_all_eq rfl⟩
    cases hp
    exact hrest.congr rfl fun _ => rfl

/-- A change of the bindings of a scope leaves the open scopes as they are. -/
theorem mapSymbols (h : Tidy Named ids s) {i : Nat}
    {f : List (String × Symbol) → List (String × Symbol)}
    (hfits : (s.mapSymbols i f).AllBindings (FitsKey Named)) :
    Tidy Named ids (s.mapSymbols i f) where
  current := h.current
  path := fun c hc => (h.path c hc).congr (s.mapSymbols_length i f) (s.mapSymbols_parentOf i f)
  fits := hfits

/-! ### Lookups -/

theorem lookup (h : Tidy Named (c :: ids) s) (k : String) :
    Gives (Reportable Named) (s.lookup k c) fun found =>
      ∀ symbol, found = some symbol → FitsKey Named k symbol := by
  rw [Scopes.lookup_eq_ok_iff.2 ⟨_, h.path c rfl, rfl⟩]
  intro symbol hfound
  exact h.fits.of_lookup (Scopes.lookup_eq_ok_iff.2 ⟨_, h.path c rfl, hfound⟩)

theorem cast_table {symbol : Symbol} (hfits : FitsKey Named k symbol)
    (hk : Named k ∨ ∃ n, k = cteKey n) :
    Gives (Reportable Named) (Scopes.cast .table k symbol) fun t =>
      ∀ a ∈ t.compoundTables, Named a := by
  cases symbol with
  | table t => exact hfits.2
  | refresh calls =>
    obtain ⟨a, rfl⟩ := hfits
    rcases hk with hk | ⟨n, hn⟩
    · exact Reportable.of_kind hk
    · exact absurd hn.symm (cteKey_ne_refreshKey n a)

theorem resolve_table (h : Tidy Named (c :: ids) s) (hk : Named k ∨ ∃ n, k = cteKey n) :
    Gives (Reportable Named) (s.resolve .table k c) fun t => ∀ a ∈ t.compoundTables, Named a := by
  refine (h.lookup k).bind fun found hfits => ?_
  cases found with
  | none => exact Reportable.of_not_internal rfl
  | some symbol => exact cast_table (hfits symbol rfl) hk

theorem tryResolve_table (h : Tidy Named (c :: ids) s) (hk : Named k ∨ ∃ n, k = cteKey n) :
    Gives (Reportable Named) (s.tryResolve .table k c) fun _ => True := by
  refine (h.lookup k).bind fun found hfits => ?_
  cases found with
  | none => exact trivial
  | some symbol => exact (cast_table (hfits symbol rfl) hk).bind fun _ _ => .pure trivial

theorem visibleTables (h : Tidy Named (c :: ids) s) : Benign (s.visibleTables c) := by
  rw [Scopes.visibleTables, h.chain]
  exact trivial

/-! ### Changes -/

theorem add (h : Tidy Named (c :: ids) s) {symbol : Symbol} (hfits : FitsKey Named k symbol) :
    Gives (Reportable Named) (s.add c k symbol) (Tidy Named (c :: ids)) := by
  rw [Scopes.add_eq]
  refine (h.lookup k).bind fun found _ => ?_
  cases found with
  | some old => exact Reportable.of_not_internal rfl
  | none =>
    refine h.mapSymbols (h.fits.mapSymbols fun symbols e he => ?_)
    rcases List.mem_append.1 he with he | he
    · exact .inl he
    · obtain rfl := List.mem_singleton.1 he
      exact .inr hfits

theorem update (h : Tidy Named (c :: ids) s) {symbol : Symbol} (hfits : FitsKey Named k symbol) :
    Gives (Reportable Named) (s.update k c symbol) (Tidy Named (c :: ids)) := by
  cases hupdate : s.update k c symbol with
  | ok s' =>
    have hall := h.fits.update hfits hupdate
    obtain ⟨_, _, -, -, rfl⟩ := Scopes.update_eq_ok_iff.1 hupdate
    exact h.mapSymbols hall
  | error e =>
    simp only [Scopes.update_eq, h.chain, Except.bind, Bind.bind] at hupdate
    split at hupdate
    · cases hupdate
    · cases hupdate
      exact Reportable.of_not_internal rfl

/-- Marking a table changes nothing that its key tells. -/
theorem markNullable (h : Tidy Named (c :: ids) s) (hk : Named k) :
    Gives (Reportable Named) (s.modify .table k c fun t => { t with nullable := true })
      (Tidy Named (c :: ids)) := by
  rw [Scopes.modify_eq]
  refine (h.resolve_table (.inl hk)).bind fun t htables => ?_
  exact h.update ⟨.inl hk, htables⟩

theorem register (h : Tidy Named (c :: ids) s) (a : String) (call : RefreshCall) :
    Gives (Reportable Named) (registerRefresh s c (refreshKey a) call)
      (Tidy Named (c :: ids)) := by
  unfold registerRefresh
  split
  · rw [Scopes.modify_eq]
    refine Gives.bind (Q := fun _ => True) ?_ fun calls _ => h.update ⟨a, rfl⟩
    refine (h.lookup (refreshKey a)).bind fun found hfits => ?_
    cases found with
    | none => exact Reportable.of_not_internal rfl
    | some symbol =>
      cases symbol with
      | refresh calls => exact trivial
      | table t =>
        rcases (hfits _ rfl).1 with hk | ⟨n, hn⟩
        · exact Reportable.of_kind hk
        · exact absurd hn.symm (cteKey_ne_refreshKey n a)
  · exact h.add ⟨a, rfl⟩

end Tidy

end Tidy

/-! ## Steps -/

section Steps

variable (Named : String → Prop)

/-- From tidy scopes with the open ones `ids` a step ends in tidy scopes with the open ones `ids'`
    and gives a result with the property `Q`, or it ends in an error that may be reported. -/
def Steady (ids ids' : List Nat) (x : Resolver α) (Q : α → Prop) : Prop :=
  ∀ s, Tidy Named ids s.scopes → match x s with
    | .ok a s' => Tidy Named ids' s'.scopes ∧ Q a
    | .error e _ => Reportable Named e

variable {Named} {c : Nat} {ids ids' ids'' : List Nat} {x : Resolver α} {Q : α → Prop}

namespace Steady

theorem pure {a : α} (h : Q a) : Steady Named ids ids (pure a) Q := fun _ hs => ⟨hs, h⟩

theorem throw {e : ResolveError} (h : Reportable Named e) :
    Steady Named ids ids' (throw e : Resolver α) Q := fun _ _ => h

theorem throw_bind {e : ResolveError} {f : α → Resolver β} {R : β → Prop}
    (h : Reportable Named e) : Steady Named ids ids' (MonadExcept.throw e >>= f) R := fun _ _ => h

theorem mono {Q' : α → Prop} (h : Steady Named ids ids' x Q) (hQ : ∀ a, Q a → Q' a) :
    Steady Named ids ids' x Q' := by
  intro s hs
  have hx := h s hs
  cases hrun : x s with
  | ok a s' =>
    rw [hrun] at hx
    exact ⟨hx.1, hQ a hx.2⟩
  | error e s' =>
    rw [hrun] at hx
    exact hx

theorem bind {f : α → Resolver β} {R : β → Prop} (h : Steady Named ids ids' x Q)
    (hf : ∀ a, Q a → Steady Named ids' ids'' (f a) R) : Steady Named ids ids'' (x >>= f) R := by
  intro s hs
  have hx := h s hs
  cases hrun : x s with
  | ok a s' =>
    rw [hrun] at hx
    rw [run_bind_of_ok hrun]
    exact hf a hx.2 s' hx.1
  | error e s' =>
    rw [hrun] at hx
    rw [run_bind_of_error hrun]
    exact hx

theorem ofExcept {y : Except ResolveError α} (h : Gives (Reportable Named) y Q) :
    Steady Named ids ids (ofExcept y) Q := by
  cases y with
  | ok a => exact .pure h
  | error e => exact .throw h

theorem readScopes {f : Scopes → Except ResolveError α}
    (h : ∀ s, Tidy Named ids s → Gives (Reportable Named) (f s) Q) :
    Steady Named ids ids (readScopes f) Q :=
  fun s hs => ofExcept (h s.scopes hs) s hs

theorem onScopes {f : Scopes → Except ResolveError Scopes}
    (h : ∀ s, Tidy Named ids s → Gives (Reportable Named) (f s) (Tidy Named ids')) :
    Steady Named ids ids' (onScopes f) fun _ => True := by
  intro s hs
  have hf := h s.scopes hs
  cases hresult : f s.scopes with
  | ok scopes =>
    rw [hresult] at hf
    rw [run_onScopes_ok (x := ()) |>.2 ⟨scopes, hresult, rfl⟩]
    exact ⟨hf, trivial⟩
  | error e =>
    rw [hresult] at hf
    have hrun : (Resolve.onScopes f) s = .error e s := by
      change (Resolve.ofExcept (f s.scopes) >>= fun scopes => set { s with scopes }) s = _
      rw [hresult]
      rfl
    rw [hrun]
    exact hf

theorem enterScope (kind : ScopeKind) (name : String)
    (h : ∀ n, Steady Named (n :: ids) ids' x Q) :
    Steady Named ids ids' (do enterScope kind name; x) Q := by
  intro s hs
  rw [run_bind_of_ok (run_enterScope_ok (x := ()) |>.2 rfl)]
  exact h _ _ (hs.enter kind name)

theorem leaveScope : Steady Named (c :: ids) ids leaveScope fun _ => True :=
  onScopes fun _ hs => hs.leave

theorem mapM {f : α → Resolver β} {R : β → Prop} {as : List α}
    (h : ∀ a ∈ as, Steady Named ids ids (f a) R) :
    Steady Named ids ids (as.mapM f) fun bs => ∀ b ∈ bs, R b := by
  induction as with
  | nil =>
    rw [List.mapM_nil]
    exact .pure (by simp)
  | cons a as ih =>
    rw [List.mapM_cons]
    refine (h a (List.mem_cons_self ..)).bind fun b hb => ?_
    refine (ih fun a ha => h a (List.mem_cons_of_mem _ ha)).bind fun bs hbs => ?_
    exact .pure (List.forall_mem_cons.2 ⟨hb, hbs⟩)

theorem optionM {f : α → Resolver β} {R : β → Prop} {o : Option α}
    (h : ∀ a ∈ o, Steady Named ids ids (f a) R) :
    Steady Named ids ids (o.mapM f) fun _ => True := by
  cases o with
  | none => exact .pure trivial
  | some a =>
    change Steady Named ids ids (some <$> f a) _
    rw [map_eq_pure_bind]
    exact (h a rfl).bind fun b _ => .pure trivial

end Steady

end Steps

end Resolve

end SchemaQuery
