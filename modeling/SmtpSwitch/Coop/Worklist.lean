import Mathlib.Data.Set.Insert
import Mathlib.Logic.Relation

/-!
# Lists of work

What a persistent list of work is for, whoever works on it: an item is accepted
once, claimed by one worker at a time, and then done, with an outcome, or put
back. Workers may die; what was claimed is put back then. Nothing that was accepted is
lost, and what is done is done once (`Runs.done`, `Runs.kept`).
-/

namespace Coop

variable {ι ω : Type*}

/-- Where an item is. -/
inductive Place (ω : Type*) where
  | waiting
  | claimed
  | done (outcome : ω)

/-- A list of work: the places of the items accepted. -/
abbrev Worklist (ι ω : Type*) := ι → Option (Place ω)

namespace Worklist

/-- The items of `S` go from one place to another, and nothing else changes. -/
structure Shifts (q q' : Worklist ι ω) (S : Set ι) (p p' : Option (Place ω)) : Prop where
  source : ∀ i ∈ S, q i = p
  target : ∀ i ∈ S, q' i = p'
  rest : ∀ i ∉ S, q' i = q i

/-- One step of the work. -/
inductive Step (q q' : Worklist ι ω) : Prop where
  | accept {i : ι} : Shifts q q' {i} none (some .waiting) → Step q q'
  | claim {S : Set ι} : Shifts q q' S (some .waiting) (some .claimed) → Step q q'
  | finish {i : ι} {outcome : ω} : Shifts q q' {i} (some .claimed) (some (.done outcome)) →
      Step q q'
  | putBack {i : ι} : Shifts q q' {i} (some .claimed) (some .waiting) → Step q q'
  /-- All claims are taken back. -/
  | recover {S : Set ι} : (∀ i, q i = some .claimed → i ∈ S) →
      Shifts q q' S (some .claimed) (some .waiting) → Step q q'

/-- Steps in sequence. -/
abbrev Runs : Worklist ι ω → Worklist ι ω → Prop := Relation.ReflTransGen Step

variable {q q' : Worklist ι ω}

/-- An item stays, or moves as one of the steps moves it. -/
theorem Step.stays_or (h : Step q q') (i : ι) : q' i = q i ∨
    q' i ≠ none ∧ (q i = none ∨ q i = some .waiting ∨ q i = some .claimed) := by
  have of_shifts : ∀ {S : Set ι} {p : Option (Place ω)} {p' : Place ω}, Shifts q q' S p (some p') →
      q' i = q i ∨ q' i ≠ none ∧ q i = p := by
    intro S p p' shifts
    by_cases hi : i ∈ S
    · exact .inr ⟨by rw [shifts.target i hi]; exact Option.some_ne_none _, shifts.source i hi⟩
    · exact .inl (shifts.rest i hi)
  cases h with
  | accept shifts => exact (of_shifts shifts).imp_right fun h => ⟨h.1, .inl h.2⟩
  | claim shifts => exact (of_shifts shifts).imp_right fun h => ⟨h.1, .inr (.inl h.2)⟩
  | finish shifts => exact (of_shifts shifts).imp_right fun h => ⟨h.1, .inr (.inr h.2)⟩
  | putBack shifts => exact (of_shifts shifts).imp_right fun h => ⟨h.1, .inr (.inr h.2)⟩
  | recover _ shifts => exact (of_shifts shifts).imp_right fun h => ⟨h.1, .inr (.inr h.2)⟩

/-- What is done is done, with the outcome it had. -/
theorem Runs.done (h : Runs q q') {i : ι} {outcome : ω} (hi : q i = some (.done outcome)) :
    q' i = some (.done outcome) := by
  induction h with
  | refl => exact hi
  | tail _ step ih =>
    rcases step.stays_or i with same | ⟨-, before⟩
    · exact same.trans ih
    · simp [ih] at before

/-- Nothing is lost. -/
theorem Runs.kept (h : Runs q q') {i : ι} (hi : q i ≠ none) : q' i ≠ none := by
  induction h with
  | refl => exact hi
  | tail _ step ih =>
    rcases step.stays_or i with same | ⟨there, -⟩
    · exact same ▸ ih
    · exact there

end Worklist

end Coop
