import PVault.Files

/-!
# Reasoning about programs over the file system

`files faults R G` is the semantics of `FileM` programs: calls may fail if `faults`
says so, others may change the file system as `R` allows, and every own step has to be
one that `G` allows. A program may fail to return only by being interrupted over and
over, which counts as a fault.

* `wp_plain` — the rule for a call that is neither a transfer nor a listing: it fails
  and changes nothing, or it does what `Fs.act` says.
* `wp_query` — the same for a call that only looks.
-/

namespace PVault

open Binary Conc

variable {op : FileOp} {fs' : Fs}

/-- Programs over the file system, next to others that act within `R`. -/
def files (faults : Bool) (R G : Fs → Fs → Prop) : Sem FileRes Fs where
  step := Fs.Step faults
  rely := R
  guar := G
  diverges := faults = true

/-- The same, where the calls in `sure` do not fail. -/
def filesSure (sure : FileOp → Prop) (faults : Bool) (R G : Fs → Fs → Prop) : Sem FileRes Fs :=
  { files faults R G with
    step := fun fs op r fs' => Fs.Step faults fs op r fs' ∧
      (sure op → r = (fs.act op).1 ∧ fs' = (fs.act op).2) }

/-- Nobody else touches the file system. -/
def Alone (fs fs' : Fs) : Prop := fs' = fs

theorem alone_refl (fs : Fs) : Alone fs fs := rfl

theorem alone_trans (a b c : Fs) (h : Alone a b) (h' : Alone b c) : Alone a c :=
  Eq.trans h' h

/-- A program returns when no call fails. -/
theorem returns_files {α : Type} {p : FileM α} {G : Fs → Fs → Prop} {Q : α → Fs → Prop} {fs : Fs}
    (h : (files false Alone G).wp p Q fs) :
    ∃ a fs', Sem.Run (files false Alone G) p fs (.ret a) fs' ∧ Q a fs' :=
  Sem.exists_run alone_refl (show ¬false = true by decide) (fun fs op => ⟨_, _, Fs.Step.acts fs op⟩) h

/-- A call. -/
abbrev sys (op : FileOp) : FileM (FileRes op) := Prog.perform op

/-! ## What a call can answer -/

/-- A failed call changes nothing. -/
theorem Fs.act_error {fs : Fs} {e : Errno} (h : (fs.act op).1 = .error e) :
    (fs.act op).2 = fs := by
  cases op <;> simp only [Fs.act] at h ⊢ <;> (repeat' split) <;> simp_all

/-- Neither a transfer of data nor a listing: the answer is all or nothing. -/
def FileOp.plain : FileOp → Bool
  | .listDir _ | .readAt _ _ _ | .writeAt _ _ _ => false
  | _ => true

/-- A call that only looks. -/
def FileOp.query : FileOp → Bool
  | .openPath _ | .lstatPath _ | .openFile _ | .openDirAt _ _ | .statDir _ | .fsyncDir _
  | .openAt _ _ | .stat _ | .statAt _ _ | .close | .malloc _ => true
  | _ => false

theorem FileOp.plain_of_query (h : op.query = true) : op.plain = true := by
  cases op <;> first | rfl | cases h

theorem Fs.act_query {fs : Fs} (h : op.query = true) : (fs.act op).2 = fs := by
  cases op <;> simp only [FileOp.query, Bool.false_eq_true] at h <;>
    simp only [Fs.act] <;> (repeat' split) <;> rfl

theorem Fs.Step.plain_cases {faults : Bool} {fs : Fs} {r : FileRes op}
    (h : Fs.Step faults fs op r fs') (hop : op.plain = true) :
    (r = (fs.act op).1 ∧ fs' = (fs.act op).2) ∨
      (faults = true ∧ (∃ e, r = .error e) ∧ fs' = fs) := by
  cases h with
  | acts => exact .inl ⟨rfl, rfl⟩
  | fails _ e hfaults => exact .inr ⟨hfaults, ⟨e, rfl⟩, rfl⟩
  | lists => cases hop
  | readsLess => cases hop
  | writesLess => cases hop

/-- What calls do when none fails, they may do anyway. -/
theorem Fs.Step.mayFail {fs : Fs} {r : FileRes op} (h : Fs.Step false fs op r fs') :
    Fs.Step true fs op r fs' := by
  cases h with
  | acts => exact .acts _ _
  | lists hdir hperm => exact .lists hdir hperm
  | fails _ _ hfaults => cases hfaults
  | readsLess hfaults => cases hfaults
  | writesLess hfaults => cases hfaults

/-! ## Rules for calls -/

section Rules

variable {faults : Bool} {R G : Fs → Fs → Prop} {α : Type} {Q : α → Fs → Prop} {fs : Fs}
variable {sure : FileOp → Prop} {k : FileRes op → FileM α} {p : FileM α}

/-- **A plain call** fails without effect, or does what it should. -/
theorem wp_plain_sure (hop : op.plain = true)
    (herr : ∀ fs₁ e, R fs fs₁ → (faults = false ∨ sure op → (fs₁.act op).1 = .error e) →
      G fs₁ fs₁ ∧ (filesSure sure faults R G).wp (k (.error e)) Q fs₁)
    (hok : ∀ fs₁ v, R fs fs₁ → (fs₁.act op).1 = .ok v →
      G fs₁ (fs₁.act op).2 ∧ (filesSure sure faults R G).wp (k (.ok v)) Q (fs₁.act op).2) :
    (filesSure sure faults R G).wp (sys op >>= k) Q fs := by
  rintro fs₁ hrely r fs₂ ⟨hstep, hsure⟩
  obtain ⟨rfl, rfl⟩ | ⟨hfaults, ⟨e, rfl⟩, rfl⟩ := hstep.plain_cases hop
  · cases hact : (fs₁.act op).1 with
    | error e =>
      rw [Fs.act_error hact]
      exact herr fs₁ e hrely fun _ => hact
    | ok v => exact hok fs₁ v hrely hact
  · refine herr fs₂ e hrely ?_
    rintro (hfalse | hop)
    · rw [hfaults] at hfalse
      cases hfalse
    · exact (hsure hop).1.symm

/-- What is verified for calls that may fail holds when some of them cannot. -/
theorem wp_sure (h : (files faults R G).wp p Q fs) :
    (filesSure sure faults R G).wp p Q fs :=
  Sem.wp_sub (S := files faults R G) (fun _ _ _ _ hstep => hstep.1) (fun _ _ h => h) (fun _ _ h => h) id h

theorem wp_of_sure (h : (filesSure (fun _ => False) faults R G).wp p Q fs) :
    (files faults R G).wp p Q fs :=
  Sem.wp_sub (S := filesSure (fun _ => False) faults R G)
    (fun _ _ _ _ hstep => ⟨hstep, False.elim⟩) (fun _ _ h => h) (fun _ _ h => h) id h

theorem wp_plain (hop : op.plain = true)
    (herr : ∀ fs₁ e, R fs fs₁ → (faults = false → (fs₁.act op).1 = .error e) →
      G fs₁ fs₁ ∧ (files faults R G).wp (k (.error e)) Q fs₁)
    (hok : ∀ fs₁ v, R fs fs₁ → (fs₁.act op).1 = .ok v →
      G fs₁ (fs₁.act op).2 ∧ (files faults R G).wp (k (.ok v)) Q (fs₁.act op).2) :
    (files faults R G).wp (sys op >>= k) Q fs :=
  wp_of_sure <| wp_plain_sure hop
    (fun fs₁ e hrely he => (herr fs₁ e hrely fun hfalse => he (.inl hfalse)).imp_right wp_sure)
    (fun fs₁ v hrely hact => (hok fs₁ v hrely hact).imp_right wp_sure)

/-- **A call that only looks.** -/
theorem wp_query (hop : op.query = true) (hG : ∀ fs, G fs fs)
    (herr : ∀ fs₁ e, R fs fs₁ → (faults = false → (fs₁.act op).1 = .error e) →
      (files faults R G).wp (k (.error e)) Q fs₁)
    (hok : ∀ fs₁ v, R fs fs₁ → (fs₁.act op).1 = .ok v → (files faults R G).wp (k (.ok v)) Q fs₁) :
    (files faults R G).wp (sys op >>= k) Q fs := by
  refine wp_plain (FileOp.plain_of_query hop) (fun fs₁ e hrely he => ⟨hG fs₁, herr fs₁ e hrely he⟩)
    (fun fs₁ v hrely hact => ?_)
  rw [Fs.act_query hop]
  exact ⟨hG fs₁, hok fs₁ v hrely hact⟩

end Rules

/-! ## Transfers -/

/-- The content of a file stays what it is, whatever the others do. -/
def Frozen (R : Fs → Fs → Prop) (i : Nat) (data : Bytes) (fs : Fs) : Prop :=
  ∀ fs', R fs fs' → ∃ n, fs'.inodes[i]? = some n ∧ n.data = data

theorem Frozen.later {R : Fs → Fs → Prop} {i : Nat} {data : Bytes} {fs : Fs}
    (htrans : ∀ a b c, R a b → R b c → R a c) (h : Frozen R i data fs) (hrely : R fs fs') :
    Frozen R i data fs' := fun fs₁ h₁ => h fs₁ (htrans _ _ _ hrely h₁)

theorem frozen_alone {i : Nat} {n : Inode} {fs : Fs} (h : fs.inodes[i]? = some n) :
    Frozen Alone i n.data fs := by
  intro fs' heq
  rw [show fs' = fs from heq]
  exact ⟨n, h, rfl⟩

section Transfers

variable {faults : Bool} {R G : Fs → Fs → Prop} {α : Type} {Q : α → Fs → Prop} {fs : Fs}

/-- **Reading** yields a part of what was asked for, and nothing only at the end of the
file. -/
theorem wp_readAt {i offset len : Nat} {data : Bytes}
    {k : FileRes (.readAt (.file i) offset len) → FileM α} (hG : ∀ fs, G fs fs)
    (hfrozen : Frozen R i data fs)
    (herr : ∀ fs₁ e, R fs fs₁ → faults = true → (files faults R G).wp (k (.error e)) Q fs₁)
    (hok : ∀ fs₁ got, R fs fs₁ → got <+: slice data offset len →
      (got = [] → slice data offset len = []) → (files faults R G).wp (k (.ok got)) Q fs₁) :
    (files faults R G).wp (sys (.readAt (.file i) offset len) >>= k) Q fs := by
  intro fs₁ hrely r fs₂ hstep
  obtain ⟨n, hn, rfl⟩ := hfrozen fs₁ hrely
  cases hstep with
  | acts =>
    simp only [Fs.act, hn]
    exact ⟨hG fs₁, hok fs₁ _ hrely (List.prefix_refl _) id⟩
  | fails _ e hfaults => exact ⟨hG fs₁, herr fs₁ e hrely hfaults⟩
  | readsLess hfaults hnode hne hpre =>
    rw [hn] at hnode
    cases hnode
    exact ⟨hG fs₁, hok fs₁ _ hrely hpre fun hnil => absurd hnil hne⟩

/-- **Writing** writes a part of the data, or fails. -/
theorem wp_writeAt {i offset : Nat} {data : Bytes} {k : FileRes (.writeAt i offset data) → FileM α}
    (hG : ∀ fs, G fs fs)
    (herr : ∀ fs₁ e, R fs fs₁ → faults = true → (files faults R G).wp (k (.error e)) Q fs₁)
    (hok : ∀ fs₁ n, R fs fs₁ → n ≤ data.length → (faults = false → n = data.length) →
      G fs₁ (fs₁.write i offset (data.take n)) ∧
        (files faults R G).wp (k (.ok n)) Q (fs₁.write i offset (data.take n))) :
    (files faults R G).wp (sys (.writeAt i offset data) >>= k) Q fs := by
  intro fs₁ hrely r fs₂ hstep
  cases hstep with
  | acts =>
    have h := hok fs₁ data.length hrely (Nat.le_refl _) fun _ => rfl
    rw [List.take_length] at h
    exact h
  | fails _ e hfaults => exact ⟨hG fs₁, herr fs₁ e hrely hfaults⟩
  | writesLess hfaults hlt =>
    refine hok fs₁ _ hrely (Nat.le_of_lt hlt) fun hfalse => ?_
    rw [hfaults] at hfalse
    cases hfalse

/-- **Listing** a directory yields its names in some order. -/
theorem wp_listDir {d : Nat} {k : FileRes (.listDir d) → FileM α} (hG : ∀ fs, G fs fs)
    (herr : ∀ fs₁ e, R fs fs₁ → (faults = false → fs₁.dirs[d]? = none) →
      (files faults R G).wp (k (.error e)) Q fs₁)
    (hok : ∀ fs₁ dir names, R fs fs₁ → fs₁.dirs[d]? = some dir → names.Perm dir.entries.keys →
      (files faults R G).wp (k (.ok names)) Q fs₁) :
    (files faults R G).wp (sys (.listDir d) >>= k) Q fs := by
  intro fs₁ hrely r fs₂ hstep
  cases hstep with
  | acts =>
    cases hdir : fs₁.dirs[d]? with
    | none =>
      simp only [Fs.act, hdir]
      exact ⟨hG fs₁, herr fs₁ _ hrely fun _ => hdir⟩
    | some dir =>
      simp only [Fs.act, hdir]
      exact ⟨hG fs₁, hok fs₁ dir _ hrely hdir (List.Perm.refl _)⟩
  | fails _ e hfaults => exact ⟨hG fs₁, herr fs₁ e hrely fun hf => absurd (hf.symm.trans hfaults) nofun⟩
  | lists hdir hperm => exact ⟨hG fs₁, hok fs₁ _ _ hrely hdir hperm⟩

end Transfers

end PVault
