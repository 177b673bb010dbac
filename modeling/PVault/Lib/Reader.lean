import PVault.Lib.Bytes

/-!
# Sequential readers

A reader takes bytes off the front of its input and returns a value, or fails. A
format is understood through judgements about its readers:

* `ReadsBack r bs x` — on the bytes `bs`, whatever follows them, `r` returns `x` and
  consumes exactly `bs`. This is the direction "decoding undoes encoding".
* `Canonical r enc P` — whenever `r` returns `x`, what it consumed was `enc x`, and `x`
  satisfies `P`. This is the direction "every accepted input is an encoding".

* `Fails r P` — whenever `r` fails, its error satisfies `P`.

Each judgement has a rule for every way readers are put together, so a codec is verified by
following the text of its reader.
-/

namespace Binary

/-- A reader with errors `ε`. -/
abbrev Reader (ε : Type) (α : Type) : Type := StateT Bytes (Except ε) α

namespace Reader

variable {ε α β : Type}
variable {r : Reader ε α} {f : α → Reader ε β} {inp rest : Bytes} {y : β} {x : α} {c : Bool} {e : ε}

/-- Fail with `e` unless the condition holds. -/
def require (c : Bool) (e : ε) : Reader ε Unit := if c then pure () else throw e

/-- Run a reader `n` times. -/
def many (r : Reader ε α) : Nat → Reader ε (List α)
  | 0 => pure []
  | n + 1 => do
    let x ← r
    let xs ← many r n
    pure (x :: xs)

/-! ## Inversion -/

theorem run_bind (r : Reader ε α) (f : α → Reader ε β) (inp : Bytes) :
    (r >>= f).run inp = match r.run inp with
      | .ok (x, rest) => (f x).run rest
      | .error e => .error e := by
  rw [StateT.run_bind]
  rcases r.run inp with e | ⟨x, rest⟩
  · rfl
  · rfl

theorem bind_ok (h : (r >>= f).run inp = .ok (y, rest)) :
    ∃ x mid, r.run inp = .ok (x, mid) ∧ (f x).run mid = .ok (y, rest) := by
  rw [run_bind] at h
  rcases hr : r.run inp with e | ⟨x, mid⟩
  · rw [hr] at h
    cases h
  · rw [hr] at h
    exact ⟨x, mid, rfl, h⟩

theorem pure_ok {y : α} (h : (pure x : Reader ε α).run inp = .ok (y, rest)) :
    y = x ∧ rest = inp := by
  rw [StateT.run_pure] at h
  cases h
  exact ⟨rfl, rfl⟩

theorem require_ok {u : Unit} (h : (require c e).run inp = .ok (u, rest)) :
    c = true ∧ rest = inp := by
  rw [require] at h
  rcases c with _ | _
  · cases h
  · exact ⟨rfl, (pure_ok h).2⟩

/-- A passed check consumes nothing. -/
theorem require_bind_ok {f : Unit → Reader ε β} (h : (require c e >>= f).run inp = .ok (y, rest)) :
    c = true ∧ (f ()).run inp = .ok (y, rest) := by
  obtain ⟨_, mid, hreq, hrest⟩ := bind_ok h
  obtain ⟨hc, rfl⟩ := require_ok hreq
  exact ⟨hc, hrest⟩

/-! ## Reading back -/

/-- On `bs`, whatever follows, the reader returns `x` and consumes exactly `bs`. -/
def ReadsBack (r : Reader ε α) (bs : Bytes) (x : α) : Prop :=
  ∀ rest, r.run (bs ++ rest) = .ok (x, rest)

theorem readsBack_pure (x : α) : ReadsBack (pure x : Reader ε α) [] x := fun _ => rfl

theorem readsBack_require (e : ε) (h : c = true) : ReadsBack (require c e) [] () := by
  intro rest
  rw [require, if_pos h]
  rfl

theorem ReadsBack.bind {bs cs : Bytes} (hr : ReadsBack r bs x) (hf : ReadsBack (f x) cs y) :
    ReadsBack (r >>= f) (bs ++ cs) y := by
  intro rest
  rw [run_bind, List.append_assoc, hr]
  exact hf rest

/-- A step that consumes nothing. -/
theorem ReadsBack.bind_nil {cs : Bytes} (hr : ReadsBack r [] x) (hf : ReadsBack (f x) cs y) :
    ReadsBack (r >>= f) cs y :=
  hr.bind hf

theorem readsBack_many {enc : α → Bytes} (xs : List α) (h : ∀ x ∈ xs, ReadsBack r (enc x) x) :
    ReadsBack (many r xs.length) (xs.flatMap enc) xs := by
  induction xs with
  | nil => exact readsBack_pure []
  | cons x xs ih =>
    have htail := ih fun y hy => h y (List.mem_cons_of_mem _ hy)
    have hcons : ReadsBack (many r (xs.length + 1)) (enc x ++ (xs.flatMap enc ++ [])) (x :: xs) :=
      (h x (List.mem_cons_self ..)).bind (htail.bind (readsBack_pure _))
    rwa [List.append_nil] at hcons

/-! ## Failures -/

/-- Whenever the reader fails, its error satisfies `P`. -/
def Fails (r : Reader ε α) (P : ε → Prop) : Prop := ∀ inp e, r.run inp = .error e → P e

theorem fails_pure (x : α) (P : ε → Prop) : Fails (pure x : Reader ε α) P :=
  fun _ _ h => nomatch h

theorem fails_require (c : Bool) {P : ε → Prop} (h : P e) : Fails (require c e) P := by
  intro inp e' hrun
  rw [require] at hrun
  rcases c with _ | _
  · cases hrun
    exact h
  · cases hrun

theorem Fails.bind {P : ε → Prop} (hr : Fails r P) (hf : ∀ x, Fails (f x) P) :
    Fails (r >>= f) P := by
  intro inp e h
  rw [run_bind] at h
  rcases hrun : r.run inp with e' | ⟨x, mid⟩
  · rw [hrun] at h
    cases h
    exact hr inp e hrun
  · rw [hrun] at h
    exact hf x mid e h

/-! ## Canonicity -/

/-- Whatever the reader accepts is the encoding of its result, which satisfies `P`. -/
def Canonical (r : Reader ε α) (enc : α → Bytes) (P : α → Prop) : Prop :=
  ∀ inp x rest, r.run inp = .ok (x, rest) → inp = enc x ++ rest ∧ P x

theorem canonical_many {enc : α → Bytes} {P : α → Prop} (h : Canonical r enc P) (n : Nat) :
    Canonical (many r n) (List.flatMap enc) fun xs => xs.length = n ∧ ∀ x ∈ xs, P x := by
  induction n with
  | zero =>
    intro inp xs rest hrun
    obtain ⟨rfl, rfl⟩ := pure_ok hrun
    exact ⟨rfl, rfl, fun x hx => absurd hx List.not_mem_nil⟩
  | succ n ih =>
    intro inp xs rest hrun
    obtain ⟨x, mid, hx, hrun⟩ := bind_ok hrun
    obtain ⟨ys, mid', hys, hrun⟩ := bind_ok hrun
    obtain ⟨rfl, rfl⟩ := pure_ok hrun
    obtain ⟨rfl, hPx⟩ := h _ _ _ hx
    obtain ⟨rfl, hlen, hP⟩ := ih _ _ _ hys
    refine ⟨by rw [List.flatMap_cons, List.append_assoc], by rw [List.length_cons, hlen], ?_⟩
    intro y hy
    rcases List.mem_cons.mp hy with rfl | hy
    · exact hPx
    · exact hP y hy

end Reader

end Binary
