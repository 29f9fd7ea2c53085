import Mathlib.Logic.Relation

/-!
# Rewriting parts of a list

A rule relates a part of a list to what may stand in its place. `Rewrites` applies rules
anywhere, any number of times. Lists are rewritten side by side (`Rewrites.append`).
-/

variable {α : Type*}

/-- One rule is applied to one part. -/
inductive RewriteStep (Rule : List α → List α → Prop) : List α → List α → Prop
  | within (before after : List α) {part part' : List α} (h : Rule part part') :
    RewriteStep Rule (before ++ part ++ after) (before ++ part' ++ after)

/-- Rules are applied one after the other. -/
def Rewrites (Rule : List α → List α → Prop) : List α → List α → Prop :=
  Relation.ReflTransGen (RewriteStep Rule)

namespace Rewrites

variable {Rule : List α → List α → Prop} {l l' m m' : List α}

theorem refl (l : List α) : Rewrites Rule l l :=
  Relation.ReflTransGen.refl

theorem trans {k : List α} (h : Rewrites Rule l m) (h' : Rewrites Rule m k) :
    Rewrites Rule l k :=
  Relation.ReflTransGen.trans h h'

theorem of_rule (h : Rule l l') : Rewrites Rule l l' := by
  have hstep := RewriteStep.within [] [] h
  simp only [List.nil_append, List.append_nil] at hstep
  exact Relation.ReflTransGen.single hstep

theorem append_left (before : List α) (h : Rewrites Rule l l') :
    Rewrites Rule (before ++ l) (before ++ l') := by
  refine Relation.ReflTransGen.lift (before ++ ·) (fun a b hab => ?_) _ _ h
  obtain ⟨b₁, b₂, hrule⟩ := hab
  have hstep := RewriteStep.within (before ++ b₁) b₂ hrule
  simpa only [Function.onFun, List.append_assoc] using hstep

theorem append_right (h : Rewrites Rule l l') (after : List α) :
    Rewrites Rule (l ++ after) (l' ++ after) := by
  refine Relation.ReflTransGen.lift (· ++ after) (fun a b hab => ?_) _ _ h
  obtain ⟨b₁, b₂, hrule⟩ := hab
  have hstep := RewriteStep.within b₁ (b₂ ++ after) hrule
  simpa only [Function.onFun, List.append_assoc] using hstep

theorem append (h : Rewrites Rule l l') (h' : Rewrites Rule m m') :
    Rewrites Rule (l ++ m) (l' ++ m') :=
  (h.append_right m).trans (h'.append_left l')

end Rewrites
