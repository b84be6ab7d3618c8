-- SUMMARY: Declared tables are numbered, and planning keeps the nodes that it has emitted.
import Mathlib.Data.List.TakeWhile
import SchemaQuery.Proofs.Plan.Moves

/-!
# Tables of a plan

Declared tables are numbered, and the number can be read off the name. Planning
only ever adds to the nodes that are there (`Extends`).
-/

namespace SchemaQuery.Plan

/-! ## Names -/

/-- The name of the table with a number. -/
def numberedTable (config : PlanConfig) (n : Nat) (role : String) : String :=
  config.transitionTablePrefix ++ toString n ++ "_" ++ role

theorem takeWhile_digits (n : Nat) (rest : List Char) :
    ((toString n).toList ++ '_' :: rest).takeWhile Char.isDigit = (toString n).toList := by
  rw [List.takeWhile_append_of_pos, List.takeWhile_cons_of_neg (by decide), List.append_nil]
  exact fun c hc => isDigit_of_mem_toString hc

theorem numberedTable_injective {config : PlanConfig} {n n' : Nat} {role role' : String}
    (h : numberedTable config n role = numberedTable config n' role') : n = n' := by
  have hchars := congrArg String.toList h
  simp only [numberedTable, String.toList_append, List.append_assoc, List.append_cancel_left_eq]
    at hchars
  have hdigits := congrArg (List.takeWhile Char.isDigit) hchars
  have hbar : "_".toList = ['_'] := rfl
  simp only [hbar, List.singleton_append, takeWhile_digits] at hdigits
  exact toString_nat_injective (String.toList_injective hdigits)

theorem numberedTable_role {config : PlanConfig} {n n' : Nat} {role role' : String}
    (h : numberedTable config n role = numberedTable config n' role') : role = role' := by
  obtain rfl := numberedTable_injective h
  have hchars := congrArg String.toList h
  simp only [numberedTable, String.toList_append, List.append_cancel_left_eq] at hchars
  exact String.toList_injective hchars

/-! ## Nodes -/

/-- The state `st'` is `st` with more nodes. -/
structure Extends (st st' : State) : Prop where
  config : st'.draft.config = st.draft.config
  nodes : st.draft.nodes <+: st'.draft.nodes

variable {qs : List BoundQuery} {st st' : State}

theorem subset_of_appended {P : List Node → Prop}
    (h : ∃ ns, st'.draft.nodes = st.draft.nodes ++ ns ∧ P ns) :
    st.draft.nodes ⊆ st'.draft.nodes := by
  obtain ⟨ns, hns, -⟩ := h
  exact hns ▸ List.subset_append_left _ _

theorem Move.extended (h : Move qs st st') : Extends st st' := by
  cases h with
  | depth | note => exact ⟨rfl, List.prefix_refl _⟩
  | declare | plain | group => exact ⟨rfl, List.prefix_append _ _⟩
  | join => exact ⟨rfl, (List.prefix_append _ _).trans (List.prefix_append _ _)⟩

theorem Moves.extended (h : Moves qs st st') : Extends st st' := by
  induction h with
  | refl => exact ⟨rfl, List.prefix_refl _⟩
  | tail _ hmove ih =>
    exact ⟨hmove.extended.config.trans ih.config, ih.nodes.trans hmove.extended.nodes⟩

end SchemaQuery.Plan
