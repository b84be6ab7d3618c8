-- SUMMARY: The suggestions for a name are near misses among the candidates, and all of them if there are few.
import Mathlib.Data.Finset.Card
import Mathlib.Data.Finset.Dedup
import SchemaQuery.Proofs.Suggest.Edits
import SchemaQuery.Suggest.Ranking

/-!
# Near misses

A candidate qualifies as a suggestion if it is another name than the one written and
close to it in one of four ways (`NearMiss`). The ways are tried one after the other,
and the candidates that pass are ranked by a score and cut off at a number.

Whatever the scores are, ranking only reorders. So the suggestions are distinct
candidates that qualify, as many of them as there are or as the number admits
(`suggest_nearMisses`).
-/

namespace SchemaQuery.SuggestionConfig

variable {config : SuggestionConfig} {name candidate c : String} {candidates : List String}

/-! ## Candidates that qualify -/

/-- A candidate is close to a name: the two differ in the case of ASCII letters only, a few edits lead
    from one to the other in lower case, the candidate goes on where the name ends, or both sound the
    same. -/
inductive NearMiss (config : SuggestionConfig) (name candidate : String) : Prop where
  | sameLetters (h : name.toList.map Char.toLower = candidate.toList.map Char.toLower)
  | edited {n : Nat} (hn : n ≤ config.maxDistance)
      (h : EditDistance.Edits n (Text.lowercase name).toList (Text.lowercase candidate).toList)
  | continued (hsize : 3 ≤ name.utf8ByteSize)
      (h : (Text.lowercase name).toList <+: (Text.lowercase candidate).toList)
  | alike {code : String} (hphonetic : config.phonetic = true)
      (hname : Soundex.code name = some code) (hcandidate : Soundex.code candidate = some code)

/-- A candidate is a suggestion for a name that was written instead. -/
def Qualifies (config : SuggestionConfig) (name candidate : String) : Prop :=
  candidate ≠ name ∧ config.NearMiss name candidate

theorem foldedDistance_le_iff {n : Nat} : foldedDistance name candidate ≤ n ↔
    ∃ m ≤ n, EditDistance.Edits m (Text.lowercase name).toList
      (Text.lowercase candidate).toList := by
  constructor
  · intro h
    exact ⟨_, h, EditDistance.edits_distance _ _⟩
  · rintro ⟨m, hm, h⟩
    exact Nat.le_trans (EditDistance.distance_le h) hm

theorem starts_iff : starts name candidate = true ↔ 3 ≤ name.utf8ByteSize ∧
    (Text.lowercase name).toList <+: (Text.lowercase candidate).toList := by
  simp [starts]

theorem soundsAlike_iff : soundsAlike name candidate = true ↔
    ∃ code, Soundex.code name = some code ∧ Soundex.code candidate = some code := by
  unfold soundsAlike
  cases Soundex.code name <;> cases Soundex.code candidate <;> simp [eq_comm]

/-- The checks find out whether a candidate is close to a name. -/
theorem nearMiss_iff : config.NearMiss name candidate ↔
    Text.eqIgnoreAsciiCase name candidate = true ∨
    foldedDistance name candidate ≤ config.maxDistance ∨ starts name candidate = true ∨
    (config.phonetic && soundsAlike name candidate) = true := by
  rw [foldedDistance_le_iff, starts_iff, Bool.and_eq_true, soundsAlike_iff, Text.eqIgnoreAsciiCase,
    beq_iff_eq]
  constructor
  · rintro (h | ⟨hn, h⟩ | ⟨hsize, h⟩ | ⟨hphonetic, hname, hcandidate⟩)
    · exact .inl h
    · exact .inr (.inl ⟨_, hn, h⟩)
    · exact .inr (.inr (.inl ⟨hsize, h⟩))
    · exact .inr (.inr (.inr ⟨hphonetic, _, hname, hcandidate⟩))
  · rintro (h | ⟨n, hn, h⟩ | ⟨hsize, h⟩ | ⟨hphonetic, code, hname, hcandidate⟩)
    · exact .sameLetters h
    · exact .edited hn h
    · exact .continued hsize h
    · exact .alike hphonetic hname hcandidate

/-- A candidate has a kind of match exactly if it qualifies. -/
theorem matchKind?_isSome_iff :
    (config.matchKind? name candidate).isSome = true ↔ config.Qualifies name candidate := by
  rw [Qualifies, nearMiss_iff, matchKind?]
  by_cases hsame : name = candidate
  · simp [hsame]
  · have hother : candidate ≠ name := fun h => hsame h.symm
    rw [if_neg hsame, and_iff_right hother]
    split_ifs <;> simp_all

instance : DecidablePred (config.Qualifies name) := fun _ =>
  decidable_of_iff _ matchKind?_isSome_iff

/-! ## Suggestions -/

theorem foldl_distinct (names : List String) {seen : List String} (hseen : seen.Nodup) :
    let all := names.foldl (fun acc n => if acc.contains n then acc else acc ++ [n]) seen
    all.Nodup ∧ ∀ c, c ∈ all ↔ c ∈ seen ∨ c ∈ names := by
  induction names generalizing seen with
  | nil => simpa using hseen
  | cons n names ih =>
    simp only [List.foldl_cons]
    split
    · rename_i hmem
      obtain ⟨hnodup, hall⟩ := ih hseen
      refine ⟨hnodup, fun c => (hall c).trans ?_⟩
      rw [List.mem_cons, ← or_assoc, or_iff_left_of_imp (b := c = n)]
      rintro rfl
      simpa using hmem
    · rename_i hnew
      have hnext : (seen ++ [n]).Nodup := by
        refine List.nodup_append'.2 ⟨hseen, List.nodup_singleton n, ?_⟩
        simpa using hnew
      obtain ⟨hnodup, hall⟩ := ih hnext
      exact ⟨hnodup, fun c => (hall c).trans (by simp [or_assoc])⟩

theorem distinct_nodup (names : List String) : (distinct names).Nodup :=
  (foldl_distinct names List.nodup_nil).1

theorem mem_distinct {names : List String} : c ∈ distinct names ↔ c ∈ names := by
  rw [distinct, (foldl_distinct names List.nodup_nil).2 c]
  simp

/-- The candidates that qualify, each once and in their own order. -/
theorem map_candidate_matching : (config.matching name candidates).map (·.candidate) =
    (distinct candidates).filter (config.Qualifies name ·) := by
  rw [matching, List.map_filterMap, ← List.filterMap_eq_filter]
  refine List.filterMap_congr fun c _ => ?_
  have hkind : (config.matchKind? name c).isSome = true ↔ _ := matchKind?_isSome_iff
  cases hmatch : config.matchKind? name c <;> simp_all [Option.guard]

/-- The candidates that qualify, without repetitions. -/
def qualifying (config : SuggestionConfig) (name : String) (candidates : List String) :
    Finset String :=
  candidates.toFinset.filter (config.Qualifies name)

@[simp] theorem mem_qualifying :
    c ∈ config.qualifying name candidates ↔ c ∈ candidates ∧ config.Qualifies name c := by
  simp [qualifying]

/-- Ranking reorders the candidates that qualify, and the first of them are taken. -/
theorem suggest_eq_take (config : SuggestionConfig) (name : String) (candidates : List String) :
    ∃ ranked : List String, ranked.Nodup ∧ ranked.toFinset = config.qualifying name candidates ∧
      config.suggest name candidates = ranked.take config.maxSuggestions := by
  let sorted := (config.matching name candidates).mergeSort fun a b => b.score ≤ a.score
  have hperm : (sorted.map (·.candidate)).Perm
      ((distinct candidates).filter (config.Qualifies name ·)) := by
    rw [← map_candidate_matching]
    exact (List.mergeSort_perm _ _).map _
  refine ⟨sorted.map (·.candidate), ?_, ?_, ?_⟩
  · exact hperm.nodup_iff.2 ((distinct_nodup candidates).filter _)
  · ext c
    simp [hperm.mem_iff, mem_distinct]
  · exact List.map_take

theorem mem_of_mem_suggest (h : c ∈ config.suggest name candidates) :
    c ∈ candidates ∧ config.Qualifies name c := by
  obtain ⟨ranked, -, hranked, htake⟩ := suggest_eq_take config name candidates
  rw [htake] at h
  rw [← mem_qualifying, ← hranked, List.mem_toFinset]
  exact List.mem_of_mem_take h

/-- Nothing is lost if all candidates that qualify may be suggested. -/
theorem mem_suggest_iff (hfew : (config.qualifying name candidates).card ≤ config.maxSuggestions) :
    c ∈ config.suggest name candidates ↔ c ∈ candidates ∧ config.Qualifies name c := by
  obtain ⟨ranked, hnodup, hranked, htake⟩ := suggest_eq_take config name candidates
  rw [← hranked, List.toFinset_card_of_nodup hnodup] at hfew
  rw [htake, List.take_of_length_le hfew, ← mem_qualifying, ← hranked, List.mem_toFinset]

/-- The suggestions for a name are distinct candidates that qualify, and as many of them as there are
    or as may be suggested. If all candidates that qualify may be suggested, the suggestions are just
    these, and any other list with the same candidates gives the same ones. -/
theorem suggest_nearMisses (config : SuggestionConfig) (name : String) (candidates : List String) :
    (config.suggest name candidates).Nodup ∧
    (config.suggest name candidates).length =
      min config.maxSuggestions (config.qualifying name candidates).card ∧
    (∀ c ∈ config.suggest name candidates, c ∈ candidates ∧ config.Qualifies name c) ∧
    ((config.qualifying name candidates).card ≤ config.maxSuggestions →
      (∀ c, c ∈ config.suggest name candidates ↔ c ∈ candidates ∧ config.Qualifies name c) ∧
      ∀ others : List String, (∀ c, c ∈ others ↔ c ∈ candidates) →
        ∀ c, c ∈ config.suggest name others ↔ c ∈ config.suggest name candidates) := by
  obtain ⟨ranked, hnodup, hranked, htake⟩ := suggest_eq_take config name candidates
  refine ⟨?_, ?_, fun c => mem_of_mem_suggest, fun hfew => ⟨fun c => mem_suggest_iff hfew, ?_⟩⟩
  · rw [htake]
    exact hnodup.sublist (List.take_sublist _ _)
  · rw [htake, List.length_take, ← hranked, List.toFinset_card_of_nodup hnodup]
  · intro others hsame c
    have hqualifying : config.qualifying name others = config.qualifying name candidates := by
      ext c
      simp [hsame]
    rw [mem_suggest_iff hfew, mem_suggest_iff (hqualifying ▸ hfew), hsame]

/-- A letter pair that was swapped, twice the same candidate, and one that differs in case only: both
    names are suggested, and the third column is not. -/
theorem suggest_nearMisses_columns :
    let config : SuggestionConfig := default
    let candidates := ["name", "age", "name", "NMAE"]
    (config.qualifying "nmae" candidates).card ≤ config.maxSuggestions ∧
      (∀ c, c ∈ config.suggest "nmae" candidates ↔ c = "name" ∨ c = "NMAE") ∧
      (config.suggest "nmae" candidates).length = 2 := by
  intro config candidates
  have hqualifying : config.qualifying "nmae" candidates = {"name", "NMAE"} := by decide +kernel
  have hfew : (config.qualifying "nmae" candidates).card ≤ config.maxSuggestions := by
    rw [hqualifying]
    decide +kernel
  obtain ⟨-, hlength, -, hall⟩ := suggest_nearMisses config "nmae" candidates
  refine ⟨hfew, fun c => ?_, ?_⟩
  · rw [(hall hfew).1 c, ← mem_qualifying, hqualifying]
    simp
  · rw [hlength, hqualifying]
    decide +kernel

end SchemaQuery.SuggestionConfig
