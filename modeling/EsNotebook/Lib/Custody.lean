import Mathlib.Data.List.Nodup
import Mathlib.Logic.Function.Basic

/-!
# Who holds what is open

Things are opened and closed one at a time, and each holder has at most one of
them.  What is open is held by somebody or has been lost; a holder that goes
away without closing loses what it holds for good.
-/

namespace EsNotebook

variable {κ φ : Type*} {isOpen isOpen' : φ → Prop} {held held' : κ → Option φ} {lost : List φ}
  {k : κ} {f : φ}

/-- What is open is held by exactly one holder or lost. -/
structure Custody (isOpen : φ → Prop) (held : κ → Option φ) (lost : List φ) : Prop where
  open_iff : ∀ f, isOpen f ↔ (∃ k, held k = some f) ∨ f ∈ lost
  inj : ∀ k k' f, held k = some f → held k' = some f → k = k'
  apart : ∀ k f, held k = some f → f ∉ lost
  nodup : lost.Nodup

namespace Custody

theorem empty (hopen : ∀ f, ¬isOpen f) (hheld : ∀ k, held k = none) :
    Custody isOpen held [] where
  open_iff f := by simp [hopen f, hheld]
  inj k _ f h := by simp [hheld k] at h
  apart k f h := by simp [hheld k] at h
  nodup := List.nodup_nil

theorem congr (h : Custody isOpen held lost) (hopen : ∀ f, isOpen' f ↔ isOpen f)
    (hheld : ∀ k, held' k = held k) : Custody isOpen' held' lost := by
  obtain rfl : held' = held := funext hheld
  exact ⟨fun f ↦ (hopen f).trans (h.open_iff f), h.inj, h.apart, h.nodup⟩

theorem isOpen_of_held (h : Custody isOpen held lost) (hk : held k = some f) : isOpen f :=
  (h.open_iff f).mpr (.inl ⟨k, hk⟩)

variable [DecidableEq κ]

/-- A holder with nothing opens something new. -/
theorem acquire (h : Custody isOpen held lost) (hk : held k = none) (hf : ¬isOpen f)
    (hopen : ∀ g, isOpen' g ↔ g = f ∨ isOpen g) :
    Custody isOpen' (Function.update held k (some f)) lost := by
  have hno : ∀ j, held j ≠ some f := fun j hj ↦ hf (h.isOpen_of_held hj)
  refine ⟨fun g ↦ ?_, fun i j g hi hj ↦ ?_, fun j g hj hlost ↦ ?_, h.nodup⟩
  · rw [hopen, h.open_iff]
    constructor
    · rintro (rfl | ⟨j, hj⟩ | hlost)
      · exact .inl ⟨k, by simp⟩
      · have hjk : j ≠ k := by
          rintro rfl
          simp [hk] at hj
        exact .inl ⟨j, by rwa [Function.update_of_ne hjk]⟩
      · exact .inr hlost
    · rintro (⟨j, hj⟩ | hlost)
      · by_cases hjk : j = k
        · subst hjk
          exact .inl (by simpa [eq_comm] using hj)
        · exact .inr (.inl ⟨j, by rwa [Function.update_of_ne hjk] at hj⟩)
      · exact .inr (.inr hlost)
  · rw [Function.update_apply] at hi hj
    split at hi <;> split at hj
    · next hik hjk => rw [hik, hjk]
    · exact absurd (Option.some.inj hi ▸ hj) (hno j)
    · exact absurd (Option.some.inj hj ▸ hi) (hno i)
    · exact h.inj i j g hi hj
  · rw [Function.update_apply] at hj
    split at hj
    · exact hf ((h.open_iff f).mpr (.inr (Option.some.inj hj ▸ hlost)))
    · exact h.apart j g hj hlost

/-- A holder closes what it holds. -/
theorem release (h : Custody isOpen held lost) (hk : held k = some f)
    (hopen : ∀ g, isOpen' g ↔ isOpen g ∧ g ≠ f) :
    Custody isOpen' (Function.update held k none) lost := by
  refine ⟨fun g ↦ ?_, fun i j g hi hj ↦ ?_, fun j g hj ↦ ?_, h.nodup⟩
  · rw [hopen, h.open_iff]
    constructor
    · rintro ⟨⟨j, hj⟩ | hlost, hne⟩
      · have hjk : j ≠ k := by
          rintro rfl
          exact hne (Option.some.inj (hj.symm.trans hk))
        exact .inl ⟨j, by rwa [Function.update_of_ne hjk]⟩
      · exact .inr hlost
    · rintro (⟨j, hj⟩ | hlost)
      · rw [Function.update_apply] at hj
        split at hj
        · cases hj
        next hjk =>
        refine ⟨.inl ⟨j, hj⟩, ?_⟩
        rintro rfl
        exact hjk (h.inj j k g hj hk)
      · refine ⟨.inr hlost, ?_⟩
        rintro rfl
        exact h.apart k g hk hlost
  · rw [Function.update_apply] at hi hj
    split at hi
    · cases hi
    split at hj
    · cases hj
    exact h.inj i j g hi hj
  · rw [Function.update_apply] at hj
    split at hj
    · cases hj
    exact h.apart j g hj

/-- A holder goes away with what it holds, if anything. -/
theorem abandon (h : Custody isOpen held lost) (k : κ) :
    Custody isOpen (Function.update held k none) (lost ++ (held k).toList) := by
  refine ⟨fun g ↦ ?_, fun i j g hi hj ↦ ?_, fun j g hj hlost ↦ ?_, ?_⟩
  · rw [h.open_iff, List.mem_append, Option.mem_toList]
    constructor
    · rintro (⟨j, hj⟩ | hlost)
      · by_cases hjk : j = k
        · subst hjk
          exact .inr (.inr hj)
        · exact .inl ⟨j, by rwa [Function.update_of_ne hjk]⟩
      · exact .inr (.inl hlost)
    · rintro (⟨j, hj⟩ | hlost | hg)
      · rw [Function.update_apply] at hj
        split at hj
        · cases hj
        · exact .inl ⟨j, hj⟩
      · exact .inr hlost
      · exact .inl ⟨k, hg⟩
  · rw [Function.update_apply] at hi hj
    split at hi
    · cases hi
    split at hj
    · cases hj
    exact h.inj i j g hi hj
  · rw [Function.update_apply] at hj
    split at hj
    · cases hj
    next hjk =>
    rcases List.mem_append.mp hlost with hlost | hg
    · exact h.apart j g hj hlost
    · exact hjk (h.inj j k g hj (Option.mem_toList.mp hg))
  · refine List.nodup_append.mpr ⟨h.nodup, ?_, fun f hf g hg heq ↦ ?_⟩
    · cases held k <;> simp
    · exact h.apart k g (Option.mem_toList.mp hg) (heq ▸ hf)

end Custody

end EsNotebook
