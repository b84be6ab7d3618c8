-- SUMMARY: Runs of steps that end without an error, taken apart.
import Mathlib.Data.List.Forall2
import SchemaQuery.Resolve.Context

/-!
# Runs of steps

Resolution and planning are sequences of steps on a state that may end in an
error. The lemmas here say what a run that ends well is made of: the runs of its
parts, one after the other, each from the state the one before it left.
-/

namespace SchemaQuery

variable {ε σ α β : Type}

/-! ## Steps on a state -/

theorem run_bind_ok {x : EStateM ε σ α} {f : α → EStateM ε σ β} {s t : σ} {b : β} :
    (x >>= f) s = .ok b t ↔ ∃ a u, x s = .ok a u ∧ f a u = .ok b t := by
  change EStateM.bind x f s = .ok b t ↔ _
  unfold EStateM.bind
  cases h : x s with
  | ok a u =>
    constructor
    · intro hf
      exact ⟨a, u, rfl, hf⟩
    · rintro ⟨a', u', hx, hf⟩
      cases hx
      exact hf
  | error e u =>
    constructor
    · intro hf
      cases hf
    · rintro ⟨a', u', hx, -⟩
      cases hx

theorem run_bind_of_ok {x : EStateM ε σ α} {f : α → EStateM ε σ β} {s u : σ} {a : α}
    (h : x s = .ok a u) : (x >>= f) s = f a u := by
  change EStateM.bind x f s = _
  simp only [EStateM.bind, h]

theorem run_bind_of_error {x : EStateM ε σ α} {f : α → EStateM ε σ β} {s u : σ} {e : ε}
    (h : x s = .error e u) : (x >>= f) s = .error e u := by
  change EStateM.bind x f s = _
  simp only [EStateM.bind, h]

@[simp] theorem run_pure_ok {a b : α} {s t : σ} :
    (pure a : EStateM ε σ α) s = .ok b t ↔ a = b ∧ s = t := by
  change EStateM.Result.ok a s = .ok b t ↔ _
  simp

@[simp] theorem run_throw_ok {e : ε} {b : α} {s t : σ} :
    ¬(throw e : EStateM ε σ α) s = .ok b t := by
  intro h
  cases h

theorem run_map_ok {f : α → β} {x : EStateM ε σ α} {s t : σ} {b : β} :
    (f <$> x) s = .ok b t ↔ ∃ a, x s = .ok a t ∧ f a = b := by
  rw [map_eq_pure_bind, run_bind_ok]
  constructor
  · rintro ⟨a, u, hx, hf⟩
    obtain ⟨rfl, rfl⟩ := run_pure_ok.1 hf
    exact ⟨a, hx, rfl⟩
  · rintro ⟨a, hx, rfl⟩
    exact ⟨a, t, hx, run_pure_ok.2 ⟨rfl, rfl⟩⟩

@[simp] theorem run_get_ok {s t u : σ} :
    (get : EStateM ε σ σ) s = .ok u t ↔ s = u ∧ s = t := by
  change EStateM.Result.ok s s = .ok u t ↔ _
  simp

@[simp] theorem run_set_ok {s t u : σ} {x : PUnit} :
    (set u : EStateM ε σ PUnit) s = .ok x t ↔ u = t := by
  change EStateM.Result.ok PUnit.unit u = .ok x t ↔ _
  simp

@[simp] theorem run_modify_ok {f : σ → σ} {s t : σ} {x : PUnit} :
    (modify f : EStateM ε σ PUnit) s = .ok x t ↔ f s = t := by
  change EStateM.Result.ok PUnit.unit (f s) = .ok x t ↔ _
  simp

/-- A run over a list is a run over its head, then one over its tail. -/
theorem run_mapM_cons_ok {f : α → EStateM ε σ β} {a : α} {as : List α} {s t : σ} {bs : List β} :
    ((a :: as).mapM f) s = .ok bs t ↔
      ∃ b u bs', f a s = .ok b u ∧ (as.mapM f) u = .ok bs' t ∧ bs = b :: bs' := by
  rw [List.mapM_cons, run_bind_ok]
  constructor
  · rintro ⟨b, u, ha, hrest⟩
    obtain ⟨bs', v, has, hpure⟩ := run_bind_ok.1 hrest
    obtain ⟨rfl, rfl⟩ := run_pure_ok.1 hpure
    exact ⟨b, u, bs', ha, has, rfl⟩
  · rintro ⟨b, u, bs', ha, has, rfl⟩
    exact ⟨b, u, ha, run_bind_ok.2 ⟨bs', t, has, run_pure_ok.2 ⟨rfl, rfl⟩⟩⟩

theorem run_mapM_nil_ok {f : α → EStateM ε σ β} {s t : σ} {bs : List β} :
    (([] : List α).mapM f) s = .ok bs t ↔ bs = [] ∧ s = t := by
  rw [List.mapM_nil, run_pure_ok]
  exact and_congr_left fun _ => eq_comm

/-- A run over an optional part does nothing when the part is missing. -/
theorem run_optionM_none_ok {f : α → EStateM ε σ β} {s t : σ} {b : Option β} :
    ((none : Option α).mapM f) s = .ok b t ↔ b = none ∧ s = t := by
  change (pure none : EStateM ε σ (Option β)) s = .ok b t ↔ _
  rw [run_pure_ok]
  exact and_congr_left fun _ => eq_comm

theorem run_optionM_some_ok {f : α → EStateM ε σ β} {a : α} {s t : σ} {b : Option β} :
    ((some a).mapM f) s = .ok b t ↔ ∃ c, f a s = .ok c t ∧ b = some c := by
  change (some <$> f a) s = .ok b t ↔ _
  rw [run_map_ok]
  exact exists_congr fun c => and_congr_right fun _ => eq_comm

/-- A run over a list is one run per member, in its place. -/
theorem forall₂_of_run_mapM {f : α → EStateM ε σ β} {as : List α} {bs : List β}
    {s t : σ} (h : as.mapM f s = .ok bs t) :
    List.Forall₂ (fun a b => ∃ u u', f a u = .ok b u') as bs := by
  induction as generalizing s bs with
  | nil =>
    obtain ⟨rfl, -⟩ := run_mapM_nil_ok.1 h
    exact .nil
  | cons a as ih =>
    obtain ⟨b, u, bs', hb, hrest, rfl⟩ := run_mapM_cons_ok.1 h
    exact .cons ⟨s, u, hb⟩ (ih hrest)

/-- Steps over a list keep what each of them keeps. -/
theorem run_mapM_keeps {f : α → EStateM ε σ β} {I : σ → Prop} {Q : β → Prop} {as : List α}
    {bs : List β} {s t : σ}
    (hf : ∀ a ∈ as, ∀ {s t : σ} {b : β}, I s → f a s = .ok b t → I t ∧ Q b) (hs : I s)
    (h : as.mapM f s = .ok bs t) : I t ∧ ∀ b ∈ bs, Q b := by
  induction as generalizing s bs with
  | nil =>
    obtain ⟨rfl, rfl⟩ := run_mapM_nil_ok.1 h
    exact ⟨hs, by simp⟩
  | cons a as ih =>
    obtain ⟨b, u, bs', hb, hrest, rfl⟩ := run_mapM_cons_ok.1 h
    obtain ⟨hu, hQ⟩ := hf a (by simp) hs hb
    obtain ⟨ht, hQ'⟩ := ih (fun a ha => hf a (List.mem_cons_of_mem _ ha)) hu hrest
    exact ⟨ht, List.forall_mem_cons.2 ⟨hQ, hQ'⟩⟩

theorem run_optionM_keeps {f : α → EStateM ε σ β} {I : σ → Prop} {Q : β → Prop} {a : Option α}
    {b : Option β} {s t : σ}
    (hf : ∀ x ∈ a, ∀ {s t : σ} {y : β}, I s → f x s = .ok y t → I t ∧ Q y) (hs : I s)
    (h : a.mapM f s = .ok b t) : I t ∧ ∀ y ∈ b, Q y := by
  cases a with
  | none =>
    obtain ⟨rfl, rfl⟩ := run_optionM_none_ok.1 h
    exact ⟨hs, by simp⟩
  | some x =>
    obtain ⟨y, hy, rfl⟩ := run_optionM_some_ok.1 h
    simpa using hf x rfl hs hy

/-! ## Computations that can fail -/

theorem except_bind_ok {x : Except ε α} {f : α → Except ε β} {b : β} :
    (x >>= f) = .ok b ↔ ∃ a, x = .ok a ∧ f a = .ok b := by
  cases x with
  | ok a =>
    constructor
    · intro hf
      exact ⟨a, rfl, hf⟩
    · rintro ⟨a', ha, hf⟩
      cases ha
      exact hf
  | error e =>
    constructor
    · intro hf
      cases hf
    · rintro ⟨a', ha, -⟩
      cases ha

theorem except_seq_ok {x : Except ε Unit} {f : Unit → Except ε β} {b : β} :
    (x >>= f) = .ok b ↔ x = .ok () ∧ f () = .ok b := by
  rw [except_bind_ok]
  exact ⟨fun ⟨_, hx, hf⟩ => ⟨hx, hf⟩, fun ⟨hx, hf⟩ => ⟨(), hx, hf⟩⟩

theorem except_pure_ok {a b : α} : (pure a : Except ε α) = .ok b ↔ a = b := by
  change Except.ok a = .ok b ↔ _
  simp

theorem except_map_ok {x : Except ε α} {f : α → β} {b : β} :
    x.map f = .ok b ↔ ∃ a, x = .ok a ∧ f a = b := by
  cases x with
  | ok a => simp [Except.map]
  | error e => simp [Except.map]

theorem except_mapM_ok {f : α → Except ε β} {as : List α} {bs : List β} :
    as.mapM f = .ok bs ↔ List.Forall₂ (fun a b => f a = .ok b) as bs := by
  induction as generalizing bs with
  | nil =>
    rw [List.mapM_nil, except_pure_ok, List.forall₂_nil_left_iff]
    exact eq_comm
  | cons a as ih =>
    rw [List.mapM_cons, except_bind_ok, List.forall₂_cons_left_iff]
    constructor
    · rintro ⟨b, ha, hrest⟩
      obtain ⟨bs', has, hpure⟩ := except_bind_ok.1 hrest
      exact ⟨b, bs', ha, ih.1 has, (except_pure_ok.1 hpure).symm⟩
    · rintro ⟨b, bs', ha, has, rfl⟩
      exact ⟨b, ha, except_bind_ok.2 ⟨bs', ih.2 has, rfl⟩⟩

/-- Every result of a run over a list comes from a member. -/
theorem mem_of_except_mapM {f : α → Except ε β} {as : List α} {bs : List β}
    (h : as.mapM f = .ok bs) {b : β} (hb : b ∈ bs) : ∃ a ∈ as, f a = .ok b := by
  rw [except_mapM_ok] at h
  induction h with
  | nil => cases hb
  | @cons a b' as bs ha _ ih =>
    rcases List.mem_cons.1 hb with rfl | hb
    · exact ⟨a, List.mem_cons_self .., ha⟩
    · obtain ⟨a', ha', hf⟩ := ih hb
      exact ⟨a', List.mem_cons_of_mem _ ha', hf⟩

/-- A result that passes a check, found by evaluation. -/
theorem exists_ok_of_check (x : Except ε α × β) (P : α → Bool)
    (h : x.1.toOption.any P = true) : ∃ a b, x = (.ok a, b) ∧ P a = true := by
  cases x with
  | mk r b =>
    cases r with
    | ok a => exact ⟨a, b, rfl, h⟩
    | error e => cases h

/-! ## Steps of resolution -/

/-- The scopes with a new child of the current scope, which is current then. -/
def Scopes.entered (s : Scopes) (kind : ScopeKind) (name : String) : Scopes :=
  ⟨s.all ++ [⟨s.all.length, s.current, kind, name, [], []⟩], some s.all.length⟩

theorem Scopes.enter_eq (s : Scopes) (kind : ScopeKind) (name : String) :
    s.enter kind name = .ok (s.entered kind name) := rfl

namespace Resolve

variable {s t : State}

@[simp] theorem run_ofExcept_ok {x : Except ResolveError α} {a : α} :
    (ofExcept x) s = .ok a t ↔ x = .ok a ∧ s = t := by
  cases x with
  | ok b => simp [ofExcept]
  | error e => simp [ofExcept]

theorem run_readScopes_ok {f : Scopes → Except ResolveError α} {a : α} :
    (readScopes f) s = .ok a t ↔ f s.scopes = .ok a ∧ s = t := by
  simp [readScopes, run_bind_ok, and_comm]

theorem run_onScopes_ok {f : Scopes → Except ResolveError Scopes} {x : Unit} :
    (onScopes f) s = .ok x t ↔ ∃ scopes, f s.scopes = .ok scopes ∧ t = { s with scopes } := by
  simp only [onScopes, run_bind_ok, run_get_ok, run_ofExcept_ok, run_set_ok]
  simp [eq_comm (a := t)]

theorem run_enterScope_ok {kind : ScopeKind} {name : String} {x : Unit} :
    (enterScope kind name) s = .ok x t ↔
      t = { s with scopes := s.scopes.entered kind name } := by
  simp [enterScope, run_onScopes_ok, Scopes.enter_eq]

theorem run_leaveScope_ok {x : Unit} :
    leaveScope s = .ok x t ↔ ∃ scopes, s.scopes.leave = .ok scopes ∧ t = { s with scopes } :=
  run_onScopes_ok

theorem run_freshAlias_ok {env : Env} {a : String} :
    (freshAlias env) s = .ok a t ↔
      a = env.config.autoAliasPrefix ++ toString s.nextAlias ∧
        t = { s with nextAlias := s.nextAlias + 1 } := by
  simp only [freshAlias, run_bind_ok, run_get_ok, run_set_ok, run_pure_ok]
  constructor
  · rintro ⟨u, v, ⟨rfl, rfl⟩, x, w, rfl, rfl, rfl⟩
    exact ⟨rfl, rfl⟩
  · rintro ⟨rfl, rfl⟩
    exact ⟨s, s, ⟨rfl, rfl⟩, ⟨⟩, _, rfl, rfl, rfl⟩

end Resolve

end SchemaQuery
