import PVault.Lib.Prog
import Mathlib.Logic.Function.Basic

/-!
# Programs next to each other

A family of programs runs in one world: at each point any of them takes its next step, or the
world changes by itself (`Par`). Every program is verified alone, against what it may rely
on; when each program's promise is within what all the others rely on, the verified
preconditions hold at every point of every interleaving (`Par.wp`), and so does whatever all
promises preserve (`Par.invariant`).
-/

namespace Conc

variable {Op : Type} {Res : Op → Type} {W ι : Type} [DecidableEq ι] {α : ι → Type}

/-- The points that the programs `ps₀`, started in `w₀`, reach: what is left of each of them,
and the world. `env` is what the world does by itself. -/
inductive Par (S : ι → Sem Res W) (env : W → W → Prop) (ps₀ : ∀ i, Prog Res (α i)) (w₀ : W) :
    (∀ i, Prog Res (α i)) → W → Prop
  | start : Par S env ps₀ w₀ ps₀ w₀
  | env {ps : ∀ i, Prog Res (α i)} {w w' : W} (h : Par S env ps₀ w₀ ps w) (hstep : env w w') :
      Par S env ps₀ w₀ ps w'
  | own {ps : ∀ i, Prog Res (α i)} {w w' : W} {i : ι} {op : Op} {k : Res op → Prog Res (α i)}
      {r : Res op} (h : Par S env ps₀ w₀ ps w) (hnext : ps i = .call op k)
      (hstep : (S i).step w op r w') : Par S env ps₀ w₀ (Function.update ps i (k r)) w'

/-- What makes a family of specifications fit together. -/
structure Compatible (S : ι → Sem Res W) (env : W → W → Prop) : Prop where
  refl : ∀ i w, (S i).rely w w
  trans : ∀ i a b c, (S i).rely a b → (S i).rely b c → (S i).rely a c
  keeps : ∀ i j, i ≠ j → ∀ a b, (S i).guar a b → (S j).rely a b
  env : ∀ i a b, env a b → (S i).rely a b

variable {S : ι → Sem Res W} {env : W → W → Prop} {ps₀ ps : ∀ i, Prog Res (α i)} {w₀ w : W}
  {Q : ∀ i, α i → W → Prop}

/-- **Parallel composition.** What is left of every program is verified at every point. -/
theorem Par.wp (h : Par S env ps₀ w₀ ps w) (hS : Compatible S env)
    (hQ : ∀ i a w₁ w₂, Q i a w₁ → (S i).rely w₁ w₂ → Q i a w₂)
    (hwp : ∀ i, (S i).wp (ps₀ i) (Q i) w₀) : ∀ i, (S i).wp (ps i) (Q i) w := by
  induction h with
  | start => exact hwp
  | env _ hstep ih => exact fun i => Sem.wp_rely (hS.trans i) (hQ i) (ih i) (hS.env i _ _ hstep)
  | own _ hnext hstep ih =>
    rename_i ps w w' i op k r _
    intro j
    have hi := ih i
    rw [hnext] at hi
    obtain ⟨hguar, hk⟩ := hi w (hS.refl i w) r w' hstep
    by_cases hij : j = i
    · subst hij
      rwa [Function.update_self]
    · rw [Function.update_of_ne hij]
      exact Sem.wp_rely (hS.trans j) (hQ j) (ih j) (hS.keeps i j (Ne.symm hij) _ _ hguar)

/-- What every promise and the world preserve holds at every point. -/
theorem Par.invariant {I : W → Prop} (h : Par S env ps₀ w₀ ps w) (hS : Compatible S env)
    (hQ : ∀ i a w₁ w₂, Q i a w₁ → (S i).rely w₁ w₂ → Q i a w₂)
    (hwp : ∀ i, (S i).wp (ps₀ i) (Q i) w₀) (hguar : ∀ i a b, (S i).guar a b → I a → I b)
    (henv : ∀ a b, env a b → I a → I b) (hI : I w₀) : I w := by
  induction h with
  | start => exact hI
  | env _ hstep ih => exact henv _ _ hstep ih
  | own hprev hnext hstep ih =>
    rename_i ps w w' i op k r
    have hi := hprev.wp hS hQ hwp i
    rw [hnext] at hi
    exact hguar i _ _ (hi w (hS.refl i w) r w' hstep).1 ih

end Conc
