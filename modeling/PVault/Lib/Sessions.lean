import PVault.Lib.Prog
import Mathlib.Logic.Function.Basic
import Mathlib.Logic.Relation

/-!
# Clients that make call after call

Any number of clients share a world. Each of them keeps something of its own between its
calls, makes one call after the other, and may be stopped at any point (`Sessions.Step`). The
steps of all clients are interleaved in any order.

* `Verified.holds` — every call is verified alone, against what the client may rely on; when
  each client's promise is within what the others rely on, an invariant of the world holds at
  every point of every run, and so does what is known about each client.
* `During` — the part of a run that lies between two points of one call, with a condition on
  the worlds in it.
* `During.wp` — what is verified about the call holds at every point of such a part.
* `During.exists_answer` — a client that is left alone gets an answer.
-/

namespace Conc

variable {Op : Type} {Res : Op → Type} {W ι : Type}

/-- What clients can do: the calls and their answers, what a client keeps between two calls,
and what becomes of the world when a client is stopped. -/
structure Service (Res : Op → Type) (W ι : Type) where
  Call : Type
  Out : Call → Type
  /-- what a client keeps between two calls -/
  Own : Type
  program : ∀ c, Prog Res (Out c)
  /-- the calls a client can make with what it has -/
  offers : Own → Call → Prop
  /-- what a client keeps after a call -/
  keeps : Own → (c : Call) → Out c → Own
  /-- what a client does by itself between two calls -/
  thinks : Own → Own → Prop
  /-- an operation of a client, its answer and the world after it -/
  step : ι → W → (op : Op) → Res op → W → Prop
  leave : ι → W → W

/-- What a client is doing. -/
inductive Seat (S : Service Res W ι) : Type
  | idle (own : S.Own)
  /-- in a call, of which `rest` is left -/
  | busy (own : S.Own) (c : S.Call) (rest : Prog Res (S.Out c))
  | gone

/-- The world and its clients. -/
structure Sessions (S : Service Res W ι) where
  world : W
  seat : ι → Seat S

variable [DecidableEq ι] {S : Service Res W ι}

namespace Sessions

/-- **A step of the client `i`.** -/
inductive Step (i : ι) : Sessions S → Sessions S → Prop
  | begin {s : Sessions S} {own : S.Own} {c : S.Call} (hseat : s.seat i = .idle own)
      (hoffer : S.offers own c) :
      Step i s ⟨s.world, Function.update s.seat i (.busy own c (S.program c))⟩
  | call {s : Sessions S} {own : S.Own} {c : S.Call} {op : Op} {k : Res op → Prog Res (S.Out c)}
      {r : Res op} {w' : W} (hseat : s.seat i = .busy own c (.call op k))
      (hstep : S.step i s.world op r w') :
      Step i s ⟨w', Function.update s.seat i (.busy own c (k r))⟩
  | finish {s : Sessions S} {own : S.Own} {c : S.Call} {a : S.Out c}
      (hseat : s.seat i = .busy own c (.ret a)) :
      Step i s ⟨s.world, Function.update s.seat i (.idle (S.keeps own c a))⟩
  | think {s : Sessions S} {own own' : S.Own} (hseat : s.seat i = .idle own)
      (hthink : S.thinks own own') : Step i s ⟨s.world, Function.update s.seat i (.idle own')⟩
  | leave (s : Sessions S) : Step i s ⟨S.leave i s.world, Function.update s.seat i .gone⟩

/-- Steps of the clients, in any order. -/
abbrev Run : Sessions S → Sessions S → Prop := Relation.ReflTransGen fun s s' => ∃ i, Step i s s'

theorem seat_update (w : W) (seat : ι → Seat S) (i : ι) (new : Seat S) :
    (Sessions.mk w (Function.update seat i new)).seat i = new := Function.update_self ..

/-- A step of one client leaves the others where they are. -/
theorem Step.seat_ne {i j : ι} {s s' : Sessions S} (h : Step i s s') (hne : j ≠ i) :
    s'.seat j = s.seat j := by
  cases h <;> exact Function.update_of_ne hne _ _

end Sessions

/-! ## Verification -/

/-- What every client relies on and promises, and what is known about the world and about a
client between two calls. -/
structure Verified (S : Service Res W ι) where
  /-- what holds at every point -/
  inv : W → Prop
  rely : ι → W → W → Prop
  guar : ι → S.Call → W → W → Prop
  /-- what holds of a client that is in no call -/
  idle : ι → S.Own → W → Prop
  /-- what a call leaves -/
  post : ι → S.Own → (c : S.Call) → S.Out c → W → Prop
  refl : ∀ i w, rely i w w
  trans : ∀ i a b c, rely i a b → rely i b c → rely i a c
  idle_rely : ∀ i own a b, idle i own a → rely i a b → idle i own b
  post_rely : ∀ i own c r a b, post i own c r a → rely i a b → post i own c r b
  program : ∀ i own c w, inv w → idle i own w → S.offers own c →
    Sem.wp ⟨S.step i, rely i, guar i c, True⟩ (S.program c) (post i own c) w
  finish : ∀ i own c r w, post i own c r w → idle i (S.keeps own c r) w
  think : ∀ i own own' w, idle i own w → S.thinks own own' → idle i own' w
  step : ∀ i c a b, inv a → guar i c a b → inv b ∧ ∀ j, j ≠ i → rely j a b
  leave : ∀ i a, inv a → inv (S.leave i a) ∧ ∀ j, j ≠ i → rely j a (S.leave i a)

namespace Verified

variable {V : Verified S} {i : ι} {s s' : Sessions S}

/-- The semantics a call is verified in. -/
abbrev sem (V : Verified S) (i : ι) (c : S.Call) : Sem Res W := ⟨S.step i, V.rely i, V.guar i c, True⟩

/-- What is known about a client. -/
def SeatOk (V : Verified S) (i : ι) (w : W) : Seat S → Prop
  | .idle own => V.idle i own w
  | .busy own c rest => (V.sem i c).wp rest (V.post i own c) w
  | .gone => True

/-- What is known at a point of a run. -/
structure Holds (V : Verified S) (s : Sessions S) : Prop where
  inv : V.inv s.world
  seats : ∀ i, V.SeatOk i s.world (s.seat i)

omit [DecidableEq ι] in
theorem SeatOk.later {w w' : W} {seat : Seat S} (h : V.SeatOk i w seat) (hrely : V.rely i w w') :
    V.SeatOk i w' seat := by
  cases seat with
  | idle own => exact V.idle_rely i own w w' h hrely
  | busy own c rest => exact Sem.wp_rely (V.trans i) (V.post_rely i own c) h hrely
  | gone => trivial

/-- A step keeps what is known when it does so for the client that takes it, and keeps to what
the others rely on. -/
theorem Holds.of_client {w' : W} {seat : Seat S} (h : V.Holds s) (hinv : V.inv w')
    (hseat : V.SeatOk i w' seat) (hrely : ∀ j, j ≠ i → V.rely j s.world w') :
    V.Holds ⟨w', Function.update s.seat i seat⟩ where
  inv := hinv
  seats j := by
    by_cases hj : j = i
    · subst hj
      simpa using hseat
    · simpa [Function.update_of_ne hj] using (h.seats j).later (hrely j hj)

omit [DecidableEq ι] in
/-- **An operation keeps the client's promise.** -/
theorem Holds.call {own : S.Own} {c : S.Call} {op : Op} {k : Res op → Prog Res (S.Out c)}
    {r : Res op} {w' : W} (h : V.Holds s) (hseat : s.seat i = .busy own c (.call op k))
    (hstep : S.step i s.world op r w') :
    V.guar i c s.world w' ∧ (V.sem i c).wp (k r) (V.post i own c) w' := by
  have hwp := h.seats i
  rw [hseat] at hwp
  exact hwp s.world (V.refl i s.world) r w' hstep

/-- What is known survives every step. -/
theorem Holds.step (h : V.Holds s) (hstep : Sessions.Step i s s') : V.Holds s' := by
  have hseat := h.seats i
  cases hstep with
  | begin hidle hoffer =>
    rw [hidle] at hseat
    exact h.of_client h.inv (V.program i _ _ _ h.inv hseat hoffer) fun j _ => V.refl j _
  | call hbusy hop =>
    obtain ⟨hguar, hrest⟩ := h.call hbusy hop
    obtain ⟨hinv, hrely⟩ := V.step i _ _ _ h.inv hguar
    exact h.of_client hinv hrest hrely
  | finish hbusy =>
    rw [hbusy] at hseat
    exact h.of_client h.inv (V.finish i _ _ _ _ hseat) fun j _ => V.refl j _
  | think hidle hthink =>
    rw [hidle] at hseat
    exact h.of_client h.inv (V.think i _ _ _ hseat hthink) fun j _ => V.refl j _
  | leave =>
    obtain ⟨hinv, hrely⟩ := V.leave i _ h.inv
    exact h.of_client hinv trivial hrely

/-- **Clients next to each other.** What is known at one point is known at every later one. -/
theorem holds (h : V.Holds s) (hrun : Sessions.Run s s') : V.Holds s' := by
  induction hrun with
  | refl => exact h
  | tail _ hstep ih =>
    obtain ⟨i, hstep⟩ := hstep
    exact ih.step hstep

/-- A step of another client is one the client relies on. -/
theorem Holds.rely {j : ι} (h : V.Holds s) (hstep : Sessions.Step j s s') (hne : i ≠ j) :
    V.rely i s.world s'.world := by
  cases hstep with
  | begin | finish | think => exact V.refl i _
  | call hbusy hop => exact (V.step j _ _ _ h.inv (h.call hbusy hop).1).2 i hne
  | leave => exact (V.leave j _ h.inv).2 i hne

end Verified

/-! ## One call -/

/-- From the moment the client `i` makes the call `c` to some point before it ends: all worlds
satisfy `P`, and the operations of the client are answered as `may` says. -/
inductive During (i : ι) (own : S.Own) (c : S.Call) (may : W → (op : Op) → Res op → W → Prop)
    (P : W → Prop) : Sessions S → Sessions S → Prop
  | begin {s : Sessions S} (hseat : s.seat i = .idle own) (hoffer : S.offers own c)
      (hP : P s.world) :
      During i own c may P s ⟨s.world, Function.update s.seat i (.busy own c (S.program c))⟩
  | call {s₀ s : Sessions S} {op : Op} {k : Res op → Prog Res (S.Out c)} {r : Res op} {w' : W}
      (h : During i own c may P s₀ s) (hseat : s.seat i = .busy own c (.call op k))
      (hstep : S.step i s.world op r w') (hmay : may s.world op r w') (hP : P w') :
      During i own c may P s₀ ⟨w', Function.update s.seat i (.busy own c (k r))⟩
  | other {s₀ s s' : Sessions S} {j : ι} (h : During i own c may P s₀ s) (hne : i ≠ j)
      (hstep : Sessions.Step j s s') (hP : P s'.world) : During i own c may P s₀ s'

namespace During

variable {i : ι} {own : S.Own} {c : S.Call} {may : W → (op : Op) → Res op → W → Prop} {P : W → Prop}
  {s₀ s : Sessions S}

/-- A part of a run is a run. -/
theorem run (h : During i own c may P s₀ s) : Sessions.Run s₀ s := by
  induction h with
  | begin hseat hoffer => exact .single ⟨i, .begin hseat hoffer⟩
  | call _ hseat hstep _ _ ih => exact ih.tail ⟨i, .call hseat hstep⟩
  | other _ _ hstep _ ih => exact ih.tail ⟨_, hstep⟩

/-- The call began before everything else in it. -/
theorem run_begin (h : During i own c may P s₀ s) :
    Sessions.Run ⟨s₀.world, Function.update s₀.seat i (.busy own c (S.program c))⟩ s := by
  induction h with
  | begin => exact .refl
  | call _ hseat hstep _ _ ih => exact ih.tail ⟨i, .call hseat hstep⟩
  | other _ _ hstep _ ih => exact ih.tail ⟨_, hstep⟩

theorem holds_start (h : During i own c may P s₀ s) : P s₀.world := by
  induction h with
  | begin _ _ hP => exact hP
  | call _ _ _ _ _ ih => exact ih
  | other _ _ _ _ ih => exact ih

theorem holds (h : During i own c may P s₀ s) : P s.world := by
  cases h with
  | begin _ _ hP => exact hP
  | call _ _ _ _ hP => exact hP
  | other _ _ _ hP => exact hP

/-- At the start of the call the client had `own`. -/
theorem idle_start (h : During i own c may P s₀ s) :
    s₀.seat i = .idle own ∧ S.offers own c := by
  induction h with
  | begin hseat hoffer => exact ⟨hseat, hoffer⟩
  | call _ _ _ _ _ ih => exact ih
  | other _ _ _ _ ih => exact ih

/-- A client that is left alone for a while follows the runs of its program. -/
theorem follow {T : Sem Res W} {p rest : Prog Res (S.Out c)} {w w' : W}
    (h : During i own c may P s₀ s) (hseat : s.seat i = .busy own c p) (hworld : s.world = w)
    (hrun : Sem.Run T p w rest w') (hquiet : ∀ a b, T.rely a b → b = a)
    (hT : ∀ a op r b, T.step a op r b → S.step i a op r b ∧ may a op r b) (hP : ∀ w, P w) :
    ∃ s', During i own c may P s₀ s' ∧ s'.world = w' ∧ s'.seat i = .busy own c rest ∧
      ∀ j, j ≠ i → s'.seat j = s.seat j := by
  induction hrun generalizing s with
  | refl => exact ⟨s, h, hworld, hseat, fun _ _ => rfl⟩
  | env hrely _ ih => exact ih h hseat (hworld.trans (hquiet _ _ hrely).symm)
  | call hstep _ ih =>
    obtain ⟨hstep, hmay⟩ := hT _ _ _ _ hstep
    subst hworld
    obtain ⟨s', hs', hworld, hseat', hothers⟩ := ih (.call h hseat hstep hmay (hP _))
      (Sessions.seat_update ..) rfl
    exact ⟨s', hs', hworld, hseat', fun j hne => (hothers j hne).trans (Function.update_of_ne hne ..)⟩

/-- **Progress.** A client that is left alone gets an answer, in a world that answers every call. -/
theorem exists_answer {T : Sem Res W} {p : Prog Res (S.Out c)} {Q : S.Out c → W → Prop}
    (h : During i own c may P s₀ s) (hseat : s.seat i = .busy own c p) (hrefl : ∀ w, T.rely w w)
    (hspin : ¬T.diverges) (htotal : ∀ w op, ∃ r w', T.step w op r w')
    (hT : ∀ a op r b, T.step a op r b → S.step i a op r b ∧ may a op r b)
    (hP : ∀ a b, T.guar a b → P a → P b) (hp : P s.world) (hwp : T.wp p Q s.world) :
    ∃ r s', During i own c may P s₀ s' ∧ s'.seat i = .busy own c (.ret r) ∧
      (∀ j, j ≠ i → s'.seat j = s.seat j) ∧ Q r s'.world := by
  induction p generalizing s with
  | ret r => exact ⟨r, s, h, hseat, fun _ _ => rfl, hwp⟩
  | spin => exact absurd hwp hspin
  | call op k ih =>
    obtain ⟨r, w', hstep⟩ := htotal s.world op
    obtain ⟨hguar, hwp'⟩ := hwp _ (hrefl _) r w' hstep
    obtain ⟨hown, hmay⟩ := hT _ _ _ _ hstep
    have hp' := hP _ _ hguar hp
    obtain ⟨a, s', hs', hret, hothers, hq⟩ := ih r (.call h hseat hown hmay hp')
      (Sessions.seat_update ..) hp' hwp'
    exact ⟨a, s', hs', hret, fun j hne => (hothers j hne).trans (Function.update_of_ne hne ..), hq⟩

variable {V : Verified S} {T : Sem Res W} {Q : S.Out c → W → Prop} (hstart : V.Holds s₀)
  (h : During i own c may P s₀ s) (hmay : ∀ a op r b, S.step i a op r b → may a op r b → T.step a op r b)
  (hrely : ∀ a b, V.rely i a b → P a → P b → T.rely a b) (hrefl : ∀ w, T.rely w w)
  (htrans : ∀ a b c, T.rely a b → T.rely b c → T.rely a c)
  (hQ : ∀ r a b, Q r a → T.rely a b → Q r b) (hwp : T.wp (S.program c) Q s₀.world)
include hstart h hmay hrely hrefl htrans hQ hwp

/-- **What is verified about a call** holds at every point of it, also when the verification
counts on more about the answers and the worlds than is true in every run. -/
theorem wp : ∃ rest, s.seat i = .busy own c rest ∧ T.wp rest Q s.world := by
  induction h with
  | begin hseat hoffer hP => exact ⟨_, Function.update_self .., hwp⟩
  | call hprev hseat hstep hm hP ih =>
    obtain ⟨rest, hrest, hwp'⟩ := ih
    rw [hseat] at hrest
    cases hrest
    exact ⟨_, Function.update_self .., (hwp' _ (hrefl _) _ _ (hmay _ _ _ _ hstep hm)).2⟩
  | other hprev hne hstep hP ih =>
    obtain ⟨rest, hrest, hwp'⟩ := ih
    have hknown := Verified.holds hstart hprev.run
    refine ⟨rest, (hstep.seat_ne hne).trans hrest, Sem.wp_rely htrans hQ hwp' ?_⟩
    exact hrely _ _ (hknown.rely hstep hne) hprev.holds hP

/-- **The answer of a call** is as verified. -/
theorem answer {a : S.Out c} (hret : s.seat i = .busy own c (.ret a)) : Q a s.world := by
  obtain ⟨rest, hrest, hwp'⟩ := h.wp hstart hmay hrely hrefl htrans hQ hwp
  rw [hret] at hrest
  cases hrest
  exact hwp'

end During

end Conc
