import Mathlib.Logic.Relation

/-! One system of steps inside another. Each kept state has an image, the steps between kept
states are those between their images, and what else leaves an image are the exits of its state. -/
namespace Simulation
open Relation

variable {α β : Type} {r : α → α → Prop} {r' : β → β → Prop} {keeps : α → Prop} {image : α → β}
variable {exits : α → β → Prop} {a b : α} {c : β}

/-- The steps of the images are the images of the steps, or exits, which lead to exits alone. -/
structure Embeds (r : α → α → Prop) (r' : β → β → Prop) (keeps : α → Prop) (image : α → β)
    (exits : α → β → Prop) : Prop where
  closed : ∀ a b, keeps a → r a b → keeps b
  forward : ∀ a b, keeps a → r a b → r' (image a) (image b)
  backward : ∀ a c, keeps a → r' (image a) c → (∃ b, r a b ∧ image b = c) ∨ exits a c
  outside : ∀ a c c', keeps a → exits a c → r' c c' → exits a c'

theorem Embeds.keeps_path (embeds : Embeds r r' keeps image exits) (kept : keeps a)
    (path : ReflTransGen r a b) : keeps b := by
  induction path with
  | refl => exact kept
  | tail _ step ih => exact embeds.closed _ _ ih step

theorem Embeds.path_forward (embeds : Embeds r r' keeps image exits) (kept : keeps a)
    (path : ReflTransGen r a b) : ReflTransGen r' (image a) (image b) := by
  induction path with
  | refl => exact .refl
  | tail path step ih =>
    exact ih.tail (embeds.forward _ _ (embeds.keeps_path kept path) step)

/-- A path from an image stays among the images, or takes an exit. -/
theorem Embeds.path_backward (embeds : Embeds r r' keeps image exits) (kept : keeps a)
    (path : ReflTransGen r' (image a) c) :
    ∃ b, ReflTransGen r a b ∧ (image b = c ∨ exits b c) := by
  induction path with
  | refl => exact ⟨a, .refl, .inl rfl⟩
  | tail _ step ih =>
    obtain ⟨b, path, rfl | exit⟩ := ih
    · rcases embeds.backward _ _ (embeds.keeps_path kept path) step with ⟨b', step', same⟩ | exit
      · exact ⟨b', path.tail step', .inl same⟩
      · exact ⟨b, path, .inr exit⟩
    · exact ⟨b, path, .inr (embeds.outside _ _ _ (embeds.keeps_path kept path) exit step)⟩

/-- Between images that are no exits the paths are the same. -/
theorem Embeds.path_iff (embeds : Embeds r r' keeps image exits) (kept : keeps a)
    (apart : ∀ b', keeps b' → ¬ exits b' (image b))
    (injective : ∀ b', keeps b' → image b' = image b → b' = b) :
    ReflTransGen r' (image a) (image b) ↔ ReflTransGen r a b := by
  constructor
  · intro path
    obtain ⟨b', path', same | exit⟩ := embeds.path_backward kept path
    · rwa [← injective b' (embeds.keeps_path kept path') same]
    · exact absurd exit (apart b' (embeds.keeps_path kept path'))
  · exact embeds.path_forward kept

end Simulation
