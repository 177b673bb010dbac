/-!
# Programs over system calls

A program is a tree of calls: it asks the world to perform an operation and
continues with the answer. `Prog` is the free monad of such programs, and a `Sem`
says what an answer may be and what the rest of the world may do between two calls.

* `Sem.wp` — the weakest precondition of a program under interference: every call is
  met by an arbitrary step of the others (`rely`), each own step has to keep the
  promise `guar`, and whatever the calls answer, the result satisfies the
  postcondition.
* `Run` — the runs of a program, cut at an arbitrary point; `wp_run` says that the
  precondition survives to every point of every run, and `guar_run` that an invariant
  of both parties holds at every point.
* `exists_run` — a program that cannot spin, against a world that always answers,
  does return.
* `Prog.iterate` and `wp_iterate` — loops, verified by an invariant.
* `Prog.Only` and `wp_only` — programs that perform certain operations only.
* `Prog.lift` and `wp_lift` — a program verified over a small world runs unchanged in
  a larger one that it sees through a projection.
* `Prog.handle` and `wp_handle` — every operation is carried out by a program over other
  operations.
-/

namespace Conc

/-- A program that performs operations `op : Op`, each answered by a `Res op`, and
returns an `α`. `spin` is the program that never returns. -/
inductive Prog {Op : Type} (Res : Op → Type) (α : Type) : Type
  | ret (a : α) : Prog Res α
  | call (op : Op) (k : Res op → Prog Res α) : Prog Res α
  | spin : Prog Res α

variable {Op : Type} {Res : Op → Type} {α β W : Type}

namespace Prog

/-- Run `p`, then continue with its result. -/
protected def bind : Prog Res α → (α → Prog Res β) → Prog Res β
  | .ret a, f => f a
  | .call op k, f => .call op fun r => (k r).bind f
  | .spin, _ => .spin

instance : Monad (Prog Res) where
  pure := .ret
  bind := .bind

@[simp] theorem pure_eq (a : α) : (pure a : Prog Res α) = .ret a := rfl

@[simp] theorem ret_bind (a : α) (f : α → Prog Res β) : (.ret a : Prog Res α) >>= f = f a := rfl

theorem bind_assoc {γ : Type} (p : Prog Res α) (f : α → Prog Res β) (g : β → Prog Res γ) :
    p >>= f >>= g = p >>= fun a => f a >>= g := by
  induction p with
  | ret a => rfl
  | spin => rfl
  | call op k ih => exact congrArg (Prog.call op) (funext ih)

/-- A single operation. -/
def perform (op : Op) : Prog Res (Res op) := .call op .ret

end Prog

/-! ## Weakest preconditions -/

/-- How programs run in a world `W`: the answers an operation may get, what the
others may do between two own steps, what each own step promises to the others, and
whether the program is allowed not to return. -/
structure Sem (Res : Op → Type) (W : Type) where
  /-- an own operation, its answer and the world after it -/
  step : W → (op : Op) → Res op → W → Prop
  /-- what the others may do -/
  rely : W → W → Prop
  /-- what the others may rely on -/
  guar : W → W → Prop
  /-- whether the program may spin -/
  diverges : Prop

namespace Sem

variable {p p' : Prog Res α} {f : α → Prog Res β} {w' : W}

/-- Started in `w`, the program keeps its promise at every step, and if it returns,
the result and the world then satisfy `Q`. -/
def wp (S : Sem Res W) : Prog Res α → (α → W → Prop) → W → Prop
  | .ret a, Q, w => Q a w
  | .call op k, Q, w =>
    ∀ w₁, S.rely w w₁ → ∀ r w₂, S.step w₁ op r w₂ → S.guar w₁ w₂ ∧ S.wp (k r) Q w₂
  | .spin, _, _ => S.diverges

variable {S : Sem Res W} {Q Q' : α → W → Prop} {w : W}

@[simp] theorem wp_ret {a : α} : S.wp (.ret a) Q w ↔ Q a w := Iff.rfl

/-- A weaker postcondition is easier to establish. -/
theorem wp_mono (h : S.wp p Q w) (hQ : ∀ a w', Q a w' → Q' a w') :
    S.wp p Q' w := by
  induction p generalizing w with
  | ret a => exact hQ a w h
  | spin => exact h
  | call op k ih =>
    intro w₁ hrely r w₂ hstep
    obtain ⟨hguar, hk⟩ := h w₁ hrely r w₂ hstep
    exact ⟨hguar, ih r hk⟩

/-- **Sequencing.** A sequence is verified part by part. -/
theorem wp_bind {Q : β → W → Prop} :
    S.wp (p >>= f) Q w ↔ S.wp p (fun a w' => S.wp (f a) Q w') w := by
  induction p generalizing w with
  | ret a => exact Iff.rfl
  | spin => exact Iff.rfl
  | call op k ih =>
    refine ⟨fun h w₁ hrely r w₂ hstep => ?_, fun h w₁ hrely r w₂ hstep => ?_⟩
    · obtain ⟨hguar, hk⟩ := h w₁ hrely r w₂ hstep
      exact ⟨hguar, (ih r).mp hk⟩
    · obtain ⟨hguar, hk⟩ := h w₁ hrely r w₂ hstep
      exact ⟨hguar, (ih r).mpr hk⟩

/-- The form in which a specification of `p` is used by its callers. -/
theorem wp_then {P : α → W → Prop} {Q : β → W → Prop} (h : S.wp p P w)
    (hf : ∀ a w', P a w' → S.wp (f a) Q w') : S.wp (p >>= f) Q w :=
  wp_bind.mpr (wp_mono h hf)

/-- A precondition survives interference, if its postcondition does. -/
theorem wp_rely (htrans : ∀ a b c, S.rely a b → S.rely b c → S.rely a c)
    (hQ : ∀ a w₁ w₂, Q a w₁ → S.rely w₁ w₂ → Q a w₂) (h : S.wp p Q w) (hrely : S.rely w w') :
    S.wp p Q w' := by
  cases p with
  | ret a => exact hQ a w w' h hrely
  | spin => exact h
  | call op k => exact fun w₁ h₁ => h w₁ (htrans w w' w₁ hrely h₁)

/-- A world with fewer steps and a weaker promise is no harder to live in. -/
theorem wp_sub {S' : Sem Res W} (hstep : ∀ w op r w', S'.step w op r w' → S.step w op r w')
    (hrely : ∀ a b, S'.rely a b → S.rely a b) (hguar : ∀ a b, S.guar a b → S'.guar a b)
    (hspin : S.diverges → S'.diverges) (h : S.wp p Q w) : S'.wp p Q w := by
  induction p generalizing w with
  | ret a => exact h
  | spin => exact hspin h
  | call op k ih =>
    intro w₁ hr r w₂ hs
    obtain ⟨hg, hk⟩ := h w₁ (hrely w w₁ hr) r w₂ (hstep w₁ op r w₂ hs)
    exact ⟨hguar w₁ w₂ hg, ih r hk⟩

/-- A promise may mention what it preserves. -/
theorem wp_invariant {G : W → W → Prop} {I : W → Prop} (hrely : ∀ a b, I a → S.rely a b → I b)
    (hguar : ∀ a b, I a → S.guar a b → I b ∧ G a b) (h : S.wp p Q w) (hI : I w) :
    Sem.wp { S with guar := G } p (fun a w' => I w' ∧ Q a w') w := by
  induction p generalizing w with
  | ret a => exact ⟨hI, h⟩
  | spin => exact h
  | call op k ih =>
    intro w₁ hr r w₂ hs
    obtain ⟨hg, hk⟩ := h w₁ hr r w₂ hs
    obtain ⟨hI₂, hG⟩ := hguar w₁ w₂ (hrely w w₁ hI hr) hg
    exact ⟨hG, ih r hk hI₂⟩

/-- What two verifications of a program promise holds together. -/
theorem wp_and {G G' : W → W → Prop} (h : Sem.wp { S with guar := G } p Q w)
    (h' : Sem.wp { S with guar := G' } p Q' w) :
    Sem.wp { S with guar := fun a b => G a b ∧ G' a b } p (fun a w' => Q a w' ∧ Q' a w') w := by
  induction p generalizing w with
  | ret a => exact ⟨h, h'⟩
  | spin => exact h
  | call op k ih =>
    intro w₁ hr r w₂ hs
    obtain ⟨hg, hk⟩ := h w₁ hr r w₂ hs
    obtain ⟨hg', hk'⟩ := h' w₁ hr r w₂ hs
    exact ⟨⟨hg, hg'⟩, ih r hk hk'⟩

/-! ## Runs -/

/-- The runs of a program, cut at an arbitrary point: the others and the program take
steps in any order. -/
inductive Run (S : Sem Res W) : Prog Res α → W → Prog Res α → W → Prop
  | refl (p : Prog Res α) (w : W) : Run S p w p w
  | env {p p' : Prog Res α} {w w₁ w' : W} (hrely : S.rely w w₁) (hrun : Run S p w₁ p' w') :
      Run S p w p' w'
  | call {op : Op} {k : Res op → Prog Res α} {r : Res op} {p' : Prog Res α} {w w₁ w' : W}
      (hstep : S.step w op r w₁) (hrun : Run S (k r) w₁ p' w') : Run S (.call op k) w p' w'

/-- **Adequacy.** The precondition of what is left to run holds at every point of
every run. -/
theorem wp_run {w : W} (hrun : Run S p w p' w') (hrefl : ∀ w, S.rely w w)
    (htrans : ∀ a b c, S.rely a b → S.rely b c → S.rely a c)
    (hQ : ∀ a w₁ w₂, Q a w₁ → S.rely w₁ w₂ → Q a w₂) (h : S.wp p Q w) : S.wp p' Q w' := by
  induction hrun with
  | refl => exact h
  | env hrely _ ih => exact ih (wp_rely htrans hQ h hrely)
  | call hstep _ ih => exact ih (h _ (hrefl _) _ _ hstep).2

/-- What the promise and the others preserve holds at every point of every run. -/
theorem guar_run {I : W → Prop} {w : W} (hrun : Run S p w p' w') (hrefl : ∀ w, S.rely w w)
    (htrans : ∀ a b c, S.rely a b → S.rely b c → S.rely a c)
    (hQ : ∀ a w₁ w₂, Q a w₁ → S.rely w₁ w₂ → Q a w₂) (h : S.wp p Q w)
    (hrely : ∀ w₁ w₂, S.rely w₁ w₂ → I w₁ → I w₂) (hguar : ∀ w₁ w₂, S.guar w₁ w₂ → I w₁ → I w₂)
    (hI : I w) : I w' := by
  induction hrun with
  | refl => exact hI
  | env hr _ ih => exact ih (wp_rely htrans hQ h hr) (hrely _ _ hr hI)
  | call hstep _ ih =>
    obtain ⟨hg, hk⟩ := h _ (hrefl _) _ _ hstep
    exact ih hk (hguar _ _ hg hI)

/-- A run is a run wherever the same steps are possible. -/
theorem Run.sub {S' : Sem Res W} {w : W} (h : Run S p w p' w')
    (hstep : ∀ w op r w', S.step w op r w' → S'.step w op r w')
    (hrely : ∀ a b, S.rely a b → S'.rely a b) : Run S' p w p' w' := by
  induction h with
  | refl => exact .refl _ _
  | env h _ ih => exact .env (hrely _ _ h) ih
  | call h _ ih => exact .call (hstep _ _ _ _ h) ih

/-- Runs continue. -/
theorem Run.trans {p'' : Prog Res α} {w w'' : W} (h : Run S p w p' w') (h' : Run S p' w' p'' w'') :
    Run S p w p'' w'' := by
  induction h with
  | refl => exact h'
  | env hrely _ ih => exact .env hrely (ih h')
  | call hstep _ ih => exact .call hstep (ih h')

/-- A run of the first part of a sequence is a run of the sequence. -/
theorem Run.bind {w : W} (h : Run S p w p' w') (f : α → Prog Res β) :
    Run S (p >>= f) w (p' >>= f) w' := by
  induction h with
  | refl => exact .refl _ _
  | env hrely _ ih => exact .env hrely ih
  | call hstep _ ih => exact .call hstep ih

/-- A run of a sequence is still in its first part, and has not returned, or has finished it. -/
theorem Run.bind_cases {rest : Prog Res β} {w : W} (h : Run S (p >>= f) w rest w') :
    (∃ p', Run S p w p' w' ∧ ∀ b, rest ≠ .ret b) ∨
      ∃ a w₁, Run S p w (.ret a) w₁ ∧ Run S (f a) w₁ rest w' := by
  generalize hq : p >>= f = q at h
  induction h generalizing p with
  | refl q w =>
    cases p with
    | ret a => exact .inr ⟨a, w, .refl _ _, hq ▸ .refl _ _⟩
    | call op k =>
      rw [← hq]
      exact .inl ⟨_, .refl _ _, nofun⟩
    | spin =>
      rw [← hq]
      exact .inl ⟨_, .refl _ _, nofun⟩
  | env hrely _ ih =>
    rcases ih hq with ⟨p', hrun, hrest⟩ | ⟨a, w₁, hrun, hrest⟩
    · exact .inl ⟨p', .env hrely hrun, hrest⟩
    · exact .inr ⟨a, w₁, .env hrely hrun, hrest⟩
  | call hstep hrun ih =>
    cases p with
    | ret a =>
      rw [Prog.ret_bind] at hq
      exact .inr ⟨a, _, .refl _ _, hq ▸ .call hstep hrun⟩
    | spin => cases hq
    | call op k =>
      cases hq
      rcases ih rfl with ⟨p', hrun, hrest⟩ | ⟨a, w₁, hrun, hrest⟩
      · exact .inl ⟨p', .call hstep hrun, hrest⟩
      · exact .inr ⟨a, w₁, .call hstep hrun, hrest⟩

/-- **Progress.** A program that may not spin returns, in a world that answers every
call. -/
theorem exists_run (hrefl : ∀ w, S.rely w w) (hspin : ¬S.diverges)
    (htotal : ∀ w op, ∃ r w', S.step w op r w') (h : S.wp p Q w) :
    ∃ a w', Run S p w (.ret a) w' ∧ Q a w' := by
  induction p generalizing w with
  | ret a => exact ⟨a, w, .refl _ _, h⟩
  | spin => exact absurd h hspin
  | call op k ih =>
    obtain ⟨r, w₁, hstep⟩ := htotal w op
    obtain ⟨a, w', hrun, hq⟩ := ih r (h w (hrefl w) r w₁ hstep).2
    exact ⟨a, w', .call hstep hrun, hq⟩

end Sem

/-! ## Loops -/

/-- A loop: `body` says whether to go round again or to stop with a result. After `n` rounds
nobody watches any more. -/
def Prog.iterate {σ : Type} (body : σ → Prog Res (σ ⊕ α)) : Nat → σ → Prog Res α
  | 0, _ => .spin
  | n + 1, s => body s >>= fun
    | .inl s' => Prog.iterate body n s'
    | .inr a => .ret a

/-- What a round of a loop leaves: the invariant, or the postcondition of the loop. -/
def LoopPost {σ : Type} (Inv : σ → W → Prop) (Q : α → W → Prop) : σ ⊕ α → W → Prop
  | .inl s, w => Inv s w
  | .inr a, w => Q a w

/-- **The rule for loops**, when nothing is promised about returning. -/
theorem Sem.wp_iterate {S : Sem Res W} {σ : Type} {body : σ → Prog Res (σ ⊕ α)}
    (Inv : σ → W → Prop) {Q : α → W → Prop} (hspin : S.diverges)
    (hbody : ∀ s w, Inv s w → S.wp (body s) (LoopPost Inv Q) w) (n : Nat) {s : σ} {w : W}
    (h : Inv s w) : S.wp (Prog.iterate body n s) Q w := by
  induction n generalizing s w with
  | zero => exact hspin
  | succ n ih =>
    refine wp_then (hbody s w h) fun x w' hx => ?_
    cases x with
    | inl s' => exact ih hx
    | inr a => exact hx

/-! ## Programs that keep an assertion -/

/-- The program keeps `A`, whatever it returns. -/
def Sem.Keeps (S : Sem Res W) (A : W → Prop) (p : Prog Res α) : Prop :=
  ∀ w, A w → S.wp p (fun _ w' => A w') w

section Keeps

variable {S : Sem Res W} {A : W → Prop}

theorem Sem.keeps_ret (a : α) : S.Keeps A (.ret a : Prog Res α) := fun _ h => h

theorem Sem.Keeps.bind {p : Prog Res α} {f : α → Prog Res β} (hp : S.Keeps A p)
    (hf : ∀ a, S.Keeps A (f a)) : S.Keeps A (p >>= f) :=
  fun w h => wp_then (hp w h) fun a w' h' => hf a w' h'

theorem Sem.Keeps.ite {c : Prop} [Decidable c] {p q : Prog Res α} (hp : S.Keeps A p)
    (hq : S.Keeps A q) : S.Keeps A (if c then p else q) := by
  split
  · exact hp
  · exact hq

theorem Sem.keeps_iterate {σ : Type} {body : σ → Prog Res (σ ⊕ α)} (hspin : S.diverges)
    (hbody : ∀ s, S.Keeps A (body s)) (n : Nat) (s : σ) : S.Keeps A (Prog.iterate body n s) :=
  fun _ h => wp_iterate (fun _ => A) hspin
    (fun s w hw => wp_mono (hbody s w hw) fun x _ hx => by cases x <;> exact hx) n h

end Keeps

/-! ## Programs that perform certain operations only -/

/-- Every operation of the program satisfies `P`, and every result `T`. -/
def Prog.Only (P : Op → Prop) (T : α → Prop) : Prog Res α → Prop
  | .ret a => T a
  | .call op k => P op ∧ ∀ r, (k r).Only P T
  | .spin => True

section Only

variable {P : Op → Prop} {T : α → Prop} {T' : β → Prop}

theorem Prog.Only.bind {p : Prog Res α} {f : α → Prog Res β} (hp : p.Only P T)
    (hf : ∀ a, T a → (f a).Only P T') : (p >>= f).Only P T' := by
  induction p with
  | ret a => exact hf a hp
  | spin => trivial
  | call op k ih => exact ⟨hp.1, fun r => ih r (hp.2 r)⟩

theorem Prog.Only.mono {T' : α → Prop} {p : Prog Res α} (hp : p.Only P T)
    (h : ∀ a, T a → T' a) : p.Only P T' := by
  induction p with
  | ret a => exact h a hp
  | spin => trivial
  | call op k ih => exact ⟨hp.1, fun r => ih r (hp.2 r)⟩

/-- Every program performs operations of some kind. -/
theorem Prog.only_trivial (p : Prog Res α) : p.Only (fun _ => True) fun _ => True := by
  induction p with
  | ret a => trivial
  | spin => trivial
  | call op k ih => exact ⟨trivial, ih⟩

/-- A single operation. -/
theorem Prog.only_perform_bind {op : Op} {f : Res op → Prog Res β} (hop : P op)
    (hf : ∀ r, (f r).Only P T') : (Prog.perform op >>= f).Only P T' := ⟨hop, hf⟩

/-- A program keeps what all its operations and the others keep. -/
theorem Sem.wp_only {S : Sem Res W} {A : W → Prop} (hspin : S.diverges)
    (hrely : ∀ a b, A a → S.rely a b → A b)
    (hstep : ∀ w op r w', A w → P op → S.step w op r w' → S.guar w w' ∧ A w') {p : Prog Res α}
    (hp : p.Only P T) {w : W} (hw : A w) : S.wp p (fun a w' => T a ∧ A w') w := by
  induction p generalizing w with
  | ret a => exact ⟨hp, hw⟩
  | spin => exact hspin
  | call op k ih =>
    intro w₁ h₁ r w₂ h₂
    obtain ⟨hguar, hA⟩ := hstep w₁ op r w₂ (hrely w w₁ hw h₁) hp.1 h₂
    exact ⟨hguar, ih r (hp.2 r) hA⟩

end Only

/-! ## Programs in a larger world -/

section Lift

variable {Op' : Type} {Res' : Op' → Type} {W' : Type}

/-- The program over the operations `emb op`, whose answers `res` reads. -/
def Prog.lift (emb : Op → Op') (res : ∀ op, Res' (emb op) → Res op) :
    Prog Res α → Prog Res' α
  | .ret a => .ret a
  | .call op k => .call (emb op) fun r => (k (res op r)).lift emb res
  | .spin => .spin

/-- **Lifting.** While `P` holds, the others and the own steps of the larger world look
through the projection `view` like those of the small one: then a specification over
the small world holds in the larger one. Own steps that keep the promise keep `P`. -/
theorem Sem.wp_lift {S : Sem Res W} {S' : Sem Res' W'} {emb : Op → Op'}
    {res : ∀ op, Res' (emb op) → Res op} (view : W' → W) (P : W' → Prop)
    (hspin : S.diverges → S'.diverges)
    (hrely : ∀ w w₁, P w → S'.rely w w₁ → P w₁ ∧ S.rely (view w) (view w₁))
    (hstep : ∀ w op r w₁, P w → S'.step w (emb op) r w₁ →
      S.step (view w) op (res op r) (view w₁) ∧
        (S.guar (view w) (view w₁) → P w₁ ∧ S'.guar w w₁))
    {p : Prog Res α} {Q : α → W → Prop} {w : W'} (hP : P w) (h : S.wp p Q (view w)) :
    S'.wp (p.lift emb res) (fun a w' => P w' ∧ Q a (view w')) w := by
  induction p generalizing w with
  | ret a => exact ⟨hP, h⟩
  | spin => exact hspin h
  | call op k ih =>
    intro w₁ hr r w₂ hs
    obtain ⟨hP₁, hview⟩ := hrely w w₁ hP hr
    obtain ⟨hs', hkeep⟩ := hstep w₁ op r w₂ hP₁ hs
    obtain ⟨hguar, hk⟩ := h (view w₁) hview _ _ hs'
    obtain ⟨hP₂, hg⟩ := hkeep hguar
    exact ⟨hg, ih (res op r) hP₂ hk⟩

end Lift

/-! ## Handlers -/

section Handle

variable {Op' : Type} {Res' : Op' → Type} {σ : Type}

/-- Carry out every operation by a program over other operations. `s` is what these programs
remember from one operation to the next. -/
def Prog.handle (h : σ → (op : Op) → Prog Res' (Res op × σ)) : Prog Res α → σ → Prog Res' α
  | .ret a, _ => .ret a
  | .call op k, s => h s op >>= fun x => (k x.1).handle h x.2
  | .spin, _ => .spin

/-- **Handling.** If the program for each operation does what the operation is specified to
do, a handled program satisfies the specification of the program. -/
theorem Sem.wp_handle {S : Sem Res W} {S' : Sem Res' W}
    {h : σ → (op : Op) → Prog Res' (Res op × σ)} (hspin : S.diverges → S'.diverges)
    (hrefl : ∀ w, S.rely w w)
    (hstep : ∀ s op w, S'.wp (h s op) (fun x w' => S.step w op x.1 w') w) {p : Prog Res α}
    {Q : α → W → Prop} {w : W} (s : σ) (hp : S.wp p Q w) : S'.wp (p.handle h s) Q w := by
  induction p generalizing s w with
  | ret a => exact hp
  | spin => exact hspin hp
  | call op k ih =>
    exact wp_then (hstep s op w) fun x w' hx => ih x.1 x.2 (hp w (hrefl w) x.1 w' hx).2

end Handle

end Conc
