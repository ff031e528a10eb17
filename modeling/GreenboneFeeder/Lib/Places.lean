import Mathlib.Data.List.Nodup
import Mathlib.Data.List.Perm.Basic

/-!
# Elements kept in places

A family of lists, one for each place, in which every element stands at most once (`Places.Apart`).
Elements enter, leave, and move from one place to another. What a move does to the two lists is said
up to their order, so a list may be a stack, a queue or a sorted list.
-/

namespace GreenboneFeeder.Places

open List

variable {π α : Type*}

/-- **Every element stands at most once**, in one place at most. -/
structure Apart (f : π → List α) : Prop where
  nodup : ∀ p, (f p).Nodup
  place : ∀ {p p' a}, a ∈ f p → a ∈ f p' → p = p'

variable {f f' : π → List α} {p p' : π} {a b : α}

namespace Apart

theorem leave (h : Apart f) (hp : (f p).Perm (a :: f' p)) (hrest : ∀ r, r ≠ p → f' r = f r) :
    Apart f' ∧ ∀ r, a ∉ f' r := by
  have hnodup := hp.nodup_iff.mp (h.nodup p)
  have hsub : ∀ r b, b ∈ f' r → b ∈ f r := by
    intro r b hb
    rcases eq_or_ne r p with rfl | hr
    · exact hp.mem_iff.mpr (mem_cons_of_mem a hb)
    · rwa [← hrest r hr]
  refine ⟨⟨fun r => ?_, fun hb hb' => h.place (hsub _ _ hb) (hsub _ _ hb')⟩, fun r hr => ?_⟩
  · rcases eq_or_ne r p with rfl | hr
    · exact (nodup_cons.mp hnodup).2
    · rw [hrest r hr]
      exact h.nodup r
  · have hrp : r = p := h.place (hsub r a hr) (hp.mem_iff.mpr mem_cons_self)
    rw [hrp] at hr
    exact (nodup_cons.mp hnodup).1 hr

theorem enter (h : Apart f) (ha : ∀ r, a ∉ f r) (hp : (f' p).Perm (a :: f p))
    (hrest : ∀ r, r ≠ p → f' r = f r) : Apart f' := by
  have hmem : ∀ r b, b ∈ f' r → b = a ∧ r = p ∨ b ∈ f r := by
    intro r b hb
    rcases eq_or_ne r p with rfl | hr
    · rcases mem_cons.mp (hp.mem_iff.mp hb) with hb | hb
      · exact .inl ⟨hb, rfl⟩
      · exact .inr hb
    · rw [hrest r hr] at hb
      exact .inr hb
  refine ⟨fun r => ?_, fun {r r' b} hb hb' => ?_⟩
  · rcases eq_or_ne r p with rfl | hr
    · exact hp.nodup_iff.mpr (nodup_cons.mpr ⟨ha r, h.nodup r⟩)
    · rw [hrest r hr]
      exact h.nodup r
  · rcases hmem r b hb with ⟨rfl, rfl⟩ | hb
    · rcases hmem r' b hb' with ⟨-, rfl⟩ | hb'
      · rfl
      · exact absurd hb' (ha r')
    · rcases hmem r' b hb' with ⟨rfl, -⟩ | hb'
      · exact absurd hb (ha r)
      · exact h.place hb hb'

/-- **An element moves from one place to another.** -/
theorem move [DecidableEq π] (h : Apart f) (hne : p ≠ p') (hp : (f p).Perm (a :: f' p))
    (hp' : (f' p').Perm (a :: f p')) (hrest : ∀ r, r ≠ p → r ≠ p' → f' r = f r) : Apart f' := by
  -- the state in between, in which the element is nowhere
  obtain ⟨g, hg⟩ : ∃ g : π → List α, ∀ r, g r = if r = p then f' r else f r := ⟨_, fun _ => rfl⟩
  have hleave : (f p).Perm (a :: g p) := by
    rwa [hg, if_pos rfl]
  have henter : (f' p').Perm (a :: g p') := by
    rwa [hg, if_neg (Ne.symm hne)]
  obtain ⟨hmid, ha⟩ := h.leave hleave fun r hr => by rw [hg, if_neg hr]
  refine hmid.enter ha henter fun r hr => ?_
  rcases eq_or_ne r p with rfl | hrp
  · rw [hg, if_pos rfl]
  · rw [hg, if_neg hrp, hrest r hrp hr]

end Apart

theorem mem_of_move (hp : (f p).Perm (a :: f' p)) (hp' : (f' p').Perm (a :: f p'))
    (hrest : ∀ r, r ≠ p → r ≠ p' → f' r = f r) {r : π} (hb : b ∈ f' r) :
    b = a ∧ r = p' ∨ b ∈ f r := by
  rcases eq_or_ne r p with rfl | hr
  · exact .inr (hp.mem_iff.mpr (mem_cons_of_mem a hb))
  rcases eq_or_ne r p' with rfl | hr'
  · rcases mem_cons.mp (hp'.mem_iff.mp hb) with hb | hb
    · exact .inl ⟨hb, rfl⟩
    · exact .inr hb
  · rw [hrest r hr hr'] at hb
    exact .inr hb

/-- An element that has moved is still somewhere, and nothing else has come or gone. -/
theorem exists_mem_of_move (hp : (f p).Perm (a :: f' p)) (hp' : (f' p').Perm (a :: f p'))
    (hrest : ∀ r, r ≠ p → r ≠ p' → f' r = f r) :
    (∃ r, b ∈ f r) ↔ ∃ r, b ∈ f' r := by
  constructor
  · rintro ⟨r, hb⟩
    rcases eq_or_ne r p with rfl | hr
    · rcases mem_cons.mp (hp.mem_iff.mp hb) with rfl | hb
      · exact ⟨p', hp'.mem_iff.mpr mem_cons_self⟩
      · exact ⟨r, hb⟩
    rcases eq_or_ne r p' with rfl | hr'
    · exact ⟨r, hp'.mem_iff.mpr (mem_cons_of_mem a hb)⟩
    · exact ⟨r, (hrest r hr hr').symm ▸ hb⟩
  · rintro ⟨r, hb⟩
    rcases mem_of_move hp hp' hrest hb with ⟨rfl, -⟩ | hb
    · exact ⟨p, hp.mem_iff.mpr mem_cons_self⟩
    · exact ⟨r, hb⟩

end GreenboneFeeder.Places
