import Mathlib.Algebra.Order.BigOperators.Group.List
import PVault.Save

/-!
# Making a new vault (`src/store.c`)

`pv_store_create` makes the directories on the way to the vault, takes the lock, draws the
identity and the master key of the new vault, and saves it like any other vault, except that
its name must be free.

* `ensureParentDirectory_spec` — only missing directories on the way are made.
* `createLocked_spec` — under the lock, a save of the new vault or nothing.
-/

namespace PVault

open Binary Conc

/-! ## The way to the vault -/

/-- The part of a path up to its last slash. -/
def parentPath (path : Bytes) : Bytes := path.take (path.length - (baseName path).length - 1)

/-- `dirname`, of a path that does not end in a slash. -/
def dirName (path : Bytes) : Bytes := if parentPath path = [] then [0x2f] else parentPath path

/-- `fsync_parent_path`. -/
def fsyncParentPath (path : Bytes) : FileM PvStatus := do
  match ← sys (.openPath (dirName path)) with
  | .error _ => return .errIo
  | .ok d =>
    match ← sys (.fsyncDir d) with
    | .error _ => closing .errIo
    | .ok _ => closing .ok

/-- `make_directory`. -/
def makeDirectory (path : Bytes) : FileM PvStatus := do
  match ← sys (.mkdirPath path) with
  | .ok _ => fsyncParentPath path
  | .error .eexist =>
    match ← sys (.lstatPath path) with
    | .ok _ => return .ok
    | .error _ => return .errIo
  | .error _ => return .errIo

/-- The path one component further. -/
def extendPath (current component : Bytes) : Bytes :=
  (if current.length > 1 then current ++ [0x2f] else current) ++ component

/-- The loop of `ensure_parent_directory`. -/
def makeDirectories (current : Bytes) : List Bytes → FileM PvStatus
  | [] => return .ok
  | component :: rest =>
    if (extendPath current component).length ≥ pathMax then
      return .errLimit
    else do
      let status ← makeDirectory (extendPath current component)
      if status ≠ .ok then return status else makeDirectories (extendPath current component) rest

/-- `validate_parent_security`. -/
def validateParentSecurity (path : Bytes) : FileM PvStatus := do
  match ← openPrivateParent path with
  | .error status => return status
  | .ok _ => closing .ok

/-- `ensure_parent_directory`; `strtok` skips empty components. -/
def ensureParentDirectory (path : Bytes) : FileM PvStatus :=
  if path.head? ≠ some 0x2f ∨ path.length ≥ pathMax then
    return .errUsage
  else if parentPath path = [] then
    return .ok
  else do
    let status ← makeDirectories [0x2f]
      ((((parentPath path).drop 1).splitOn 0x2f).filter fun component => component ≠ [])
    if status ≠ .ok then return status else validateParentSecurity path

/-! ## The new vault -/

/-- What a new vault gets from outside: memory, random bytes and the time. -/
structure CreateEnv where
  arena : SecureAlloc
  vmkMem : SecureAlloc
  vaultId : Block pvVaultIdBytes
  deviceId : Block pvDeviceIdBytes
  vmk : Block pvWrapKeyBytes
  /-- `pv_now_ms` -/
  created : Int64
  header : HeaderDraws
  passwordMem : KeyMemory
  recoveryMem : KeyMemory
  save : SaveEnv

section Programs

variable {Hash : Type} [DecidableEq Hash] (so : Sodium Hash) (host : Host)

/-- The new vault, before it is saved. -/
def newVault (env : CreateEnv) (path : Bytes) : Except PvStatus (Vault Hash) :=
  match pvModelInit so.zeroHash path env.arena env.vmkMem with
  | .error status => .error status
  | .ok vault => .ok
    { vault with
      vaultId := env.vaultId
      deviceId := env.deviceId
      vmk := env.vmk
      createdMs := env.created
      updatedMs := env.created
      generation := 0
      dirty := true }

/-- The header of the new vault. -/
def newHeader (env : CreateEnv) (password : Bytes) (recoveryKey : Block pvRecoveryKeyBytes) :
    PvStatus × FileHeader :=
  pvCryptoCreateHeader so { FileHeader.zero with vaultId := env.vaultId } password recoveryKey env.vmk
    env.header env.passwordMem env.recoveryMem

/-- The part of `create_common` under the lock: the status, and the vault unless it was
destroyed. -/
def createLocked (env : CreateEnv) (path password : Bytes) (recoveryKey : Block pvRecoveryKeyBytes)
    (location : Location) : FileM (PvStatus × Option (Vault Hash)) := do
  match ← pathEntryExistsAt location.dir location.name with
  | .error status => return (status, none)
  | .ok true => return (.errExists, none)
  | .ok false =>
    match newVault so env path with
    | .error status => return (status, none)
    | .ok vault =>
      match newHeader so env password recoveryKey with
      | (.ok, header) => do
        let (status, vault, _) ←
          saveLocked so host env.save location vault header pvDefaultBackupRetention true
        return (status, if status.Committed then some vault else none)
      | (status, _) => return (status, none)

end Programs

/-! ## Directories on the way -/

/-- Missing directories on the way along `comps` may be made; if the whole way is there, nothing
is. -/
def Fs.Grows (comps : List Bytes) (a b : Fs) : Prop :=
  (∃ d name, Fs.Made d name a b) ∧ (a.walk 0 comps ≠ none → b = a)

section Way

variable {a b : Fs} {d e x y : Nat} {name : Bytes} {comps front cs : List Bytes}

theorem Fs.Grows.refl (a : Fs) : Fs.Grows comps a a := ⟨⟨0, [], Fs.Made.refl a⟩, fun _ => rfl⟩

theorem Fs.walk_append (fs : Fs) (xs ys : List Bytes) :
    ∀ d, fs.walk d (xs ++ ys) = (fs.walk d xs).bind fun e => fs.walk e ys := by
  induction xs with
  | nil => exact fun _ => rfl
  | cons c xs ih =>
    intro d
    simp only [List.cons_append, Fs.walk]
    split
    · exact ih _
    · rfl

theorem Fs.walk_front {fs : Fs} (hfront : front <+: comps) (h : fs.walk d comps ≠ none) :
    ∃ e, fs.walk d front = some e := by
  obtain ⟨back, rfl⟩ := hfront
  rw [Fs.walk_append] at h
  cases hwalk : fs.walk d front with
  | none =>
    rw [hwalk] at h
    exact absurd rfl h
  | some e => exact ⟨e, rfl⟩

/-- A way that became passable ends in a directory that is new, and empty. -/
theorem Fs.Made.walk_cases (h : Fs.Made d name a b) :
    ∀ {cs x}, b.walk x cs = some y → a.walk x cs = some y ∨ ∀ other, b.lookup y other = none := by
  intro cs
  induction cs with
  | nil => exact fun hwalk => .inl hwalk
  | cons c cs ih =>
    intro x hwalk
    simp only [Fs.walk] at hwalk
    split at hwalk
    · next e hlook =>
      -- The entry was there before, or it is the new directory.
      have hcases : a.lookup x c = some (.dir e) ∨ ∀ other, b.lookup e other = none := by
        by_cases heq : (x, c) = (d, name)
        · obtain ⟨rfl, rfl⟩ := Prod.mk.inj heq
          rcases h.lookup_cases with hsame | ⟨e', he', hnew⟩
          · exact .inl (hsame ▸ hlook)
          · rw [hlook] at he'
            cases he'
            refine .inr fun other => ?_
            rw [h.lookup_eq e other (.inr fun heq => b.nested _ _ _ hlook (Prod.mk.inj heq).1)]
            exact hnew other
        · exact .inl (h.lookup_eq x c (.inr heq) ▸ hlook)
      rcases hcases with hold | hempty
      · rcases ih hwalk with hsame | hnew
        · refine .inl ?_
          simp only [Fs.walk, hold]
          exact hsame
        · exact .inr hnew
      · cases cs with
        | nil =>
          cases hwalk
          exact .inr hempty
        | cons c' cs =>
          simp only [Fs.walk, hempty c'] at hwalk
          cases hwalk
    · cases hwalk

theorem Fs.Grows.walk_cases (h : Fs.Grows comps a b) (hwalk : b.walk 0 comps = some y) :
    b = a ∨ ∀ other, b.lookup y other = none := by
  obtain ⟨⟨d, name, hmade⟩, hsame⟩ := h
  rcases hmade.walk_cases hwalk with hold | hnew
  · exact .inl (hsame (by rw [hold]; exact nofun))
  · exact .inr hnew

/-- What `mkdir` does on the way, which then was not passable. -/
theorem Fs.mkdirPath_made {path : Bytes} {v : Unit} (habs : path.head? = some 0x2f)
    (hfront : Fs.components path <+: comps) (hact : (a.act (.mkdirPath path)).1 = .ok v) :
    (∃ d name, Fs.Made d name a (a.act (.mkdirPath path)).2) ∧ a.walk 0 comps = none := by
  have horigin : a.origin path = 0 := if_pos habs
  simp only [Fs.act] at hact ⊢
  split at hact
  · cases hact
  next name hlast =>
  split at hact
  · cases hact
  next d hwalk =>
  split at hact
  · next hnew =>
    rw [if_pos hnew]
    refine ⟨⟨d, name, Fs.made_addDir hnew.2 hnew.1⟩, ?_⟩
    -- The way stopped at the new directory.
    by_contra hway
    obtain ⟨e, he⟩ := Fs.walk_front hfront hway
    have hsplit : Fs.components path = (Fs.components path).dropLast ++ [name] := by
      rw [List.dropLast_append_getLast? name hlast]
    rw [hsplit, Fs.walk_append, ← horigin, hwalk, Option.bind_some, Fs.walk, hnew.1] at he
    cases he
  · cases hact

end Way

/-! ## Making the directories -/

theorem components_append (xs ys : Bytes) :
    Fs.components (xs ++ 0x2f :: ys) = Fs.components xs ++ Fs.components ys := by
  rw [Fs.components, List.splitOn_append_cons_self, List.filter_append]
  rfl

theorem components_token {component : Bytes} (h : (0x2f : UInt8) ∉ component) :
    Fs.components component = [component].filter fun c => c ≠ [] ∧ c ≠ [0x2e] := by
  have hsplit : component.splitOn 0x2f = [component] := by
    have hnone : ∀ l ∈ [component], (0x2f : UInt8) ∉ l := fun l hl => List.mem_singleton.mp hl ▸ h
    simpa using List.splitOn_intercalate (0x2f : UInt8) hnone (by simp)
  rw [Fs.components, hsplit]

theorem components_extendPath {current component : Bytes} (habs : current.head? = some 0x2f) :
    Fs.components (extendPath current component) =
      Fs.components current ++ Fs.components component := by
  rw [extendPath]
  split
  · rw [List.append_assoc, List.singleton_append, components_append]
  · next hshort =>
    -- The path is the single slash.
    obtain ⟨rest, rfl⟩ := List.head?_eq_some_iff.mp habs
    have hnil : rest = [] := by
      rw [List.length_cons] at hshort
      exact List.eq_nil_of_length_eq_zero (by omega)
    subst hnil
    exact components_append [] component

theorem head_extendPath {current : Bytes} (component : Bytes) (habs : current.head? = some 0x2f) :
    (extendPath current component).head? = some 0x2f := by
  obtain ⟨rest, rfl⟩ := List.head?_eq_some_iff.mp habs
  rw [extendPath]
  split <;> rfl

/-- No component contains a slash. -/
theorem not_mem_splitOn {c : UInt8} (xs : Bytes) : ∀ t ∈ xs.splitOn c, c ∉ t := by
  induction xs with
  | nil => simp
  | cons x xs ih =>
    rw [List.splitOn_cons_eq_if_modifyHead]
    split
    · next heq =>
      intro t ht
      rcases List.mem_cons.mp ht with rfl | ht
      · exact List.not_mem_nil
      · exact ih t ht
    · next hne =>
      obtain ⟨head, tail, hsplit⟩ := List.exists_cons_of_ne_nil (show xs.splitOn c ≠ [] by simp)
      rw [hsplit] at ih ⊢
      intro t ht
      rcases List.mem_cons.mp ht with rfl | ht
      · rw [List.mem_cons, not_or]
        exact ⟨fun heq => hne (by simp [heq]), ih head List.mem_cons_self⟩
      · exact ih t (List.mem_cons_of_mem _ ht)

/-- The components `strtok` finds are the way. -/
theorem components_tokens (rest : Bytes) :
    ((rest.splitOn 0x2f).filter fun c => c ≠ []).flatMap Fs.components = Fs.components rest := by
  rw [Fs.components]
  have htokens := not_mem_splitOn (c := 0x2f) rest
  generalize rest.splitOn (0x2f : UInt8) = tokens at htokens
  induction tokens with
  | nil => rfl
  | cons t tokens ih =>
    have ih := ih fun t' ht' => htokens t' (List.mem_cons_of_mem _ ht')
    by_cases hnil : t = []
    · rw [List.filter_cons_of_neg (by simp [hnil]), ih, List.filter_cons_of_neg (by simp [hnil])]
    · rw [List.filter_cons_of_pos (by simp [hnil]), List.flatMap_cons, ih,
        components_token (htokens t List.mem_cons_self), ← List.filter_append, List.singleton_append]

section Spec

variable {faults : Bool} {R G : Fs → Fs → Prop} {fs : Fs} {comps : List Bytes}
variable {path : Bytes}

/-- The others act, or a missing directory is made. -/
abbrev Fs.GrowsAmong (R : Fs → Fs → Prop) (comps : List Bytes) : Fs → Fs → Prop :=
  Relation.ReflTransGen fun a b => R a b ∨ Fs.Grows comps a b

theorem fsyncParentPath_spec (hG : ∀ fs, G fs fs) (htrans : ∀ a b c, R a b → R b c → R a c) :
    (files faults R G).wp (fsyncParentPath path)
      (fun status fs' => R fs fs' ∧ (status ≠ .ok → ¬status.Committed)) fs := by
  have hclosing : ∀ {fs₁ status}, R fs fs₁ → (status ≠ .ok → ¬status.Committed) →
      (files faults R G).wp (closing status)
        (fun status fs' => R fs fs' ∧ (status ≠ .ok → ¬status.Committed)) fs₁ := by
    intro fs₁ status h₁ hstatus
    refine wp_close hG fun fs₂ r h₂ _ => ?_
    cases r with
    | ok _ => exact ⟨htrans _ _ _ h₁ h₂, hstatus⟩
    | error _ =>
      refine ⟨htrans _ _ _ h₁ h₂, ?_⟩
      split
      · exact fun _ => by decide
      · exact hstatus
  refine wp_query rfl hG (fun fs₁ _ h₁ _ => ⟨h₁, fun _ => by decide⟩) fun fs₁ d h₁ _ => ?_
  refine wp_query rfl hG (fun fs₂ _ h₂ _ => hclosing (htrans _ _ _ h₁ h₂) fun _ => by decide)
    fun fs₂ _ h₂ _ => hclosing (htrans _ _ _ h₁ h₂) fun h => absurd rfl h

/-- What making directories on the way may have done. -/
structure WayResult (faults : Bool) (R : Fs → Fs → Prop) (comps : List Bytes) (fs : Fs)
    (status : PvStatus) (fs' : Fs) : Prop where
  grown : Fs.GrowsAmong R comps fs fs'
  failed : status ≠ .ok → ¬status.Committed
  /-- nothing was to be done -/
  clean : faults = false → (∀ fs₁, R fs fs₁ → fs₁.walk 0 comps ≠ none) → status = .ok ∧ R fs fs'

/-- A call that only looks on the way. -/
theorem WayResult.of_rely {status : PvStatus} {fs' : Fs} (h : R fs fs')
    (hfailed : status ≠ .ok → ¬status.Committed)
    (hclean : faults = false → (∀ fs₁, R fs fs₁ → fs₁.walk 0 comps ≠ none) → status = .ok) :
    WayResult faults R comps fs status fs' :=
  ⟨.single (.inl h), hfailed, fun hfalse hway => ⟨hclean hfalse hway, h⟩⟩

theorem makeDirectory_spec (habs : path.head? = some 0x2f) (hfront : Fs.components path <+: comps)
    (htrans : ∀ a b c, R a b → R b c → R a c) (hG : ∀ a b, Fs.Grows comps a b → G a b) :
    (files faults R G).wp (makeDirectory path) (WayResult faults R comps fs) fs := by
  have hrefl' : ∀ fs, G fs fs := fun fs => hG fs fs (Fs.Grows.refl fs)
  have horigin : ∀ fs : Fs, fs.origin path = 0 := fun fs => if_pos habs
  refine wp_plain rfl (fun fs₁ e h₁ he => ⟨hrefl' fs₁, ?_⟩) fun fs₁ v h₁ hact => ?_
  · -- On an existing way, `mkdir` says that the directory exists.
    have hexists : faults = false → (∀ fs₂, R fs fs₂ → fs₂.walk 0 comps ≠ none) → e = .eexist := by
      intro hfalse hway
      have hact := he hfalse
      simp only [Fs.act] at hact
      split at hact
      · cases hact
        rfl
      next name hlast =>
      have hsplit : Fs.components path = (Fs.components path).dropLast ++ [name] := by
        rw [List.dropLast_append_getLast? name hlast]
      have hstart : (Fs.components path).dropLast <+: comps :=
        (List.dropLast_prefix _).trans hfront
      obtain ⟨d, hd⟩ := Fs.walk_front hstart (hway fs₁ h₁)
      rw [horigin, hd] at hact
      dsimp only at hact
      split at hact
      · cases hact
      · cases hact
        rfl
    have hother : e ≠ .eexist → WayResult faults R comps fs .errIo fs₁ := fun hne =>
      .of_rely h₁ (fun _ => by decide) fun hfalse hway => absurd (hexists hfalse hway) hne
    cases e with
    | eexist =>
      refine wp_query rfl hrefl' (fun fs₂ _ h₂ he => ?_) fun fs₂ _ h₂ _ => ?_
      · refine .of_rely (htrans _ _ _ h₁ h₂) (fun _ => by decide) fun hfalse hway => ?_
        have hact := he hfalse
        obtain ⟨d, hd⟩ := Fs.walk_front hfront (hway fs₂ (htrans _ _ _ h₁ h₂))
        simp only [Fs.act, Fs.resolve, horigin, hd] at hact
        cases hact
      · exact .of_rely (htrans _ _ _ h₁ h₂) (fun h => absurd rfl h) fun _ _ => rfl
    | _ => exact hother (by decide)
  · obtain ⟨hmade, hblocked⟩ := Fs.mkdirPath_made habs hfront hact
    have hgrows : Fs.Grows comps fs₁ (fs₁.act (.mkdirPath path)).2 :=
      ⟨hmade, fun hway => absurd hblocked hway⟩
    refine ⟨hG _ _ hgrows, Sem.wp_mono (fsyncParentPath_spec hrefl' htrans) ?_⟩
    rintro status fs₂ ⟨h₂, hfailed⟩
    exact ⟨.tail (.tail (.single (.inl h₁)) (.inr hgrows)) (.inl h₂), hfailed,
      fun _ hway => absurd hblocked (hway fs₁ h₁)⟩

/-- The components and their separators are as long as the text. -/
theorem length_splitOn {c : UInt8} (xs : Bytes) :
    ((xs.splitOn c).map fun t => t.length + 1).sum = xs.length + 1 := by
  induction xs with
  | nil => simp
  | cons x xs ih =>
    rw [List.splitOn_cons_eq_if_modifyHead]
    split
    · rw [List.map_cons, List.sum_cons, ih, List.length_nil, List.length_cons]
      omega
    · obtain ⟨head, tail, hsplit⟩ := List.exists_cons_of_ne_nil (show xs.splitOn c ≠ [] by simp)
      rw [hsplit, List.map_cons, List.sum_cons] at ih
      rw [hsplit, List.modifyHead_cons, List.map_cons, List.sum_cons, List.length_cons,
        List.length_cons]
      omega

theorem makeDirectories_spec (hrefl : ∀ fs, R fs fs) (htrans : ∀ a b c, R a b → R b c → R a c)
    (hG : ∀ a b, Fs.Grows comps a b → G a b) (rest : List Bytes) :
    ∀ {current : Bytes} {fs : Fs}, current.head? = some 0x2f →
    current.length + (rest.map fun c => c.length + 1).sum < pathMax →
    Fs.components current ++ rest.flatMap Fs.components = comps →
    (files faults R G).wp (makeDirectories current rest) (WayResult faults R comps fs) fs := by
  induction rest with
  | nil =>
    intro current fs _ _ _
    exact .of_rely (hrefl fs) (fun h => absurd rfl h) fun _ _ => rfl
  | cons component rest ih =>
    intro current fs habs hlen hcomps
    have hnext := head_extendPath component habs
    have hlong : (extendPath current component).length ≤ current.length + 1 + component.length := by
      rw [extendPath]
      split
      · simp
        omega
      · simp
    rw [List.map_cons, List.sum_cons] at hlen
    rw [List.flatMap_cons, ← List.append_assoc, ← components_extendPath habs] at hcomps
    rw [makeDirectories, if_neg (by omega)]
    have hfront : Fs.components (extendPath current component) <+: comps := ⟨_, hcomps⟩
    refine Sem.wp_then (makeDirectory_spec hnext hfront htrans hG) ?_
    intro status fs₁ h₁
    split
    · next hbad => exact h₁
    · next hgood =>
      refine Sem.wp_mono (ih hnext (by omega) hcomps) ?_
      intro status₂ fs₂ h₂
      refine ⟨h₁.grown.trans h₂.grown, h₂.failed, fun hfalse hway => ?_⟩
      obtain ⟨-, hrely⟩ := h₁.clean hfalse hway
      obtain ⟨hok, hrely₂⟩ := h₂.clean hfalse fun fs₃ h₃ => hway fs₃ (htrans _ _ _ hrely h₃)
      exact ⟨hok, htrans _ _ _ hrely hrely₂⟩

theorem baseName_length_lt (habs : path.head? = some 0x2f) :
    (baseName path).length < path.length := by
  obtain ⟨rest, rfl⟩ := List.head?_eq_some_iff.mp habs
  have hinit := List.takeWhile_prefix (l := (0x2f :: rest).reverse) fun c : UInt8 => c ≠ 0x2f
  rw [baseName, List.length_reverse, ← @List.length_reverse _ (0x2f :: rest)]
  refine lt_of_le_of_ne hinit.length_le fun heq => ?_
  have hall := List.all_takeWhile (l := (0x2f :: rest).reverse) (p := fun c : UInt8 => c ≠ 0x2f)
  rw [hinit.eq_of_length heq] at hall
  simp at hall

/-- The parent that is opened is the one whose directories were made. -/
theorem split_parentPath {parent name : Bytes} (habs : path.head? = some 0x2f)
    (hne : parentPath path ≠ []) (h : splitParentAndName path = .ok (parent, name)) :
    parent = parentPath path ∧ (parentPath path).head? = some 0x2f := by
  have hlt := baseName_length_lt habs
  have hpos : path.length - (baseName path).length - 1 ≠ 0 := by
    intro hzero
    rw [parentPath, hzero] at hne
    exact hne rfl
  refine ⟨?_, ?_⟩
  · simp only [splitParentAndName, if_neg (Nat.ne_of_lt hlt), if_neg hpos] at h
    split_ifs at h
    cases h
    rfl
  · rw [parentPath, List.head?_take, if_neg hpos, habs]

theorem validateParentSecurity_spec (hG : ∀ fs, G fs fs) (hrefl : ∀ fs, R fs fs)
    (htrans : ∀ a b c, R a b → R b c → R a c) :
    (files faults R G).wp (validateParentSecurity path)
      (fun status fs' => R fs fs' ∧ (status ≠ .ok → ¬status.Committed) ∧
        (faults = false → ∀ location, LeadsAlways R path location fs → status = .ok)) fs := by
  refine Sem.wp_then (openPrivateParent_spec hG hrefl htrans) ?_
  rintro r fs₁ ⟨h₁, hresult⟩
  cases r with
  | error status =>
    exact ⟨h₁, fun _ => hresult.1, fun hfalse location hleads => absurd hleads (hresult.2 hfalse location)⟩
  | ok found =>
    refine wp_close hG fun fs₂ r h₂ hr => ?_
    cases r with
    | ok _ => exact ⟨htrans _ _ _ h₁ h₂, fun h => absurd rfl h, fun _ _ _ => rfl⟩
    | error e =>
      exact ⟨htrans _ _ _ h₁ h₂, fun _ => by decide, fun hfalse => absurd (hr hfalse) nofun⟩

/-- **The way to the vault**: only missing directories on it are made. -/
theorem ensureParentDirectory_spec (hrefl : ∀ fs, R fs fs)
    (htrans : ∀ a b c, R a b → R b c → R a c)
    (hG : ∀ a b, Fs.Grows (Fs.components (parentPath path)) a b → G a b) :
    (files faults R G).wp (ensureParentDirectory path)
      (fun status fs' => Fs.GrowsAmong R (Fs.components (parentPath path)) fs fs' ∧
        (status ≠ .ok → ¬status.Committed) ∧
        (faults = false → path.head? = some 0x2f → ∀ location, LeadsAlways R path location fs →
          status = .ok ∧ R fs fs')) fs := by
  have hrefl' : ∀ fs, G fs fs := fun fs => hG fs fs (Fs.Grows.refl fs)
  rw [ensureParentDirectory]
  split
  · next hbad =>
    refine ⟨.refl, fun _ => by decide, fun _ habs location hleads => ?_⟩
    obtain ⟨parent, -, hsplit, -⟩ := hleads fs (hrefl fs)
    rw [splitParentAndName] at hsplit
    split at hsplit
    · cases hsplit
    · next hok =>
      rcases hbad with hrel | hlong
      · exact absurd habs hrel
      · exact absurd hlong (not_or.mp hok).2
  next hgood =>
  obtain ⟨habs, hshort⟩ := not_or.mp hgood
  have habs : path.head? = some 0x2f := not_not.mp habs
  split
  · exact ⟨.refl, fun h => absurd rfl h, fun _ _ _ _ => ⟨rfl, hrefl fs⟩⟩
  next hne =>
  have hparent : (parentPath path).head? = some 0x2f := by
    have hpos : path.length - (baseName path).length - 1 ≠ 0 := by
      intro hzero
      rw [parentPath, hzero] at hne
      exact hne rfl
    rw [parentPath, List.head?_take, if_neg hpos, habs]
  obtain ⟨rest, hrest⟩ := List.head?_eq_some_iff.mp hparent
  have hcomps : Fs.components [0x2f] ++ ((((parentPath path).drop 1).splitOn 0x2f).filter
      fun component => component ≠ []).flatMap Fs.components = Fs.components (parentPath path) := by
    rw [components_tokens, hrest, List.drop_one, List.tail_cons]
    exact (components_append [] rest).symm
  have hlen : [(0x2f : UInt8)].length + (((((parentPath path).drop 1).splitOn 0x2f).filter
      fun component => component ≠ []).map fun c => c.length + 1).sum < pathMax := by
    have hsum : (((((parentPath path).drop 1).splitOn 0x2f).filter
        fun component => component ≠ []).map fun c => c.length + 1).sum ≤
        ((((parentPath path).drop 1).splitOn 0x2f).map fun c => c.length + 1).sum :=
      (List.filter_sublist.map _).sum_le_sum fun _ _ => Nat.zero_le _
    have hle : (parentPath path).length ≤ path.length - 1 := by
      rw [parentPath, List.length_take]
      omega
    have hpos : (parentPath path).length = rest.length + 1 := by rw [hrest, List.length_cons]
    rw [length_splitOn, List.length_drop] at hsum
    rw [List.length_singleton]
    omega
  refine Sem.wp_then (makeDirectories_spec hrefl htrans hG _ rfl hlen hcomps) ?_
  intro status fs₁ h₁
  have hway : faults = false → ∀ location, LeadsAlways R path location fs →
      ∀ fs₂, R fs fs₂ → fs₂.walk 0 (Fs.components (parentPath path)) ≠ none := by
    intro _ location hleads fs₂ h₂
    obtain ⟨parent, -, hsplit, hresolve, -⟩ := hleads fs₂ h₂
    obtain ⟨rfl, -⟩ := split_parentPath habs hne hsplit
    rw [Fs.resolve, Fs.origin, if_pos hparent] at hresolve
    rw [hresolve]
    exact Option.some_ne_none _
  split
  · next hbad =>
    exact ⟨h₁.grown, h₁.failed, fun hfalse _ location hleads =>
      absurd (h₁.clean hfalse (hway hfalse location hleads)).1 hbad⟩
  · refine Sem.wp_mono (validateParentSecurity_spec hrefl' hrefl htrans) ?_
    rintro status₂ fs₂ ⟨h₂, hfailed, hclean⟩
    refine ⟨h₁.grown.tail (.inl h₂), hfailed, fun hfalse _ location hleads => ?_⟩
    obtain ⟨-, hrely⟩ := h₁.clean hfalse (hway hfalse location hleads)
    exact ⟨hclean hfalse location fun fs₃ h₃ => hleads fs₃ (htrans _ _ _ hrely h₃),
      htrans _ _ _ hrely h₂⟩

end Spec

/-! ## Under the lock -/

section Locked

variable {Hash : Type} {so : Sodium Hash} {host : Host} {faults : Bool} {G : Fs → Fs → Prop}
  {fs : Fs} {env : CreateEnv} {path password : Bytes} {recoveryKey : Block pvRecoveryKeyBytes}
  {location : Location}

theorem newVault_refused {status : PvStatus} (h : newVault so env path = .error status) :
    ¬status.Committed := by
  rw [newVault] at h
  split at h
  · next hinit =>
    cases h
    exact pvModelInit_refused hinit
  · cases h

/-- What a new vault is made of, and the header for it. -/
structure Drawn (so : Sodium Hash) (env : CreateEnv) (path password : Bytes)
    (recoveryKey : Block pvRecoveryKeyBytes) (vault : Vault Hash) (header : FileHeader) : Prop where
  vault_eq : newVault so env path = .ok vault
  header_eq : newHeader so env password recoveryKey = (.ok, header)

/-- What `pv_store_create` may have done under the lock. -/
structure CreateResult (so : Sodium Hash) (faults : Bool) (env : CreateEnv) (path password : Bytes)
    (recoveryKey : Block pvRecoveryKeyBytes) (location : Location) (fs : Fs)
    (r : PvStatus × Option (Vault Hash)) (fs' : Fs) : Prop where
  effect : fs' = fs ∨ ∃ vault header, Drawn so env path password recoveryKey vault header ∧
    (savePlan so env.save location vault header true (fs.active location)).Steps fs fs'
  refused : ¬r.1.Committed → r.2 = none ∧ fs'.lookup location.dir location.name =
    fs.lookup location.dir location.name
  committed : r.1.Committed → ∃ vault header saved header',
    Drawn so env path password recoveryKey vault header ∧ r.2 = some saved ∧
      SaveDone so env.save (savePlan so env.save location vault header true (fs.active location))
        vault header true fs (r.1, saved, header') fs'
  /-- without failing calls, a vault that can be sealed is made under a free name -/
  clean : faults = false → fs.NoScratch location → fs.LeadsTo path location →
    location.name.length + 13 < pathMax → fs'.NoScratch location ∧ ∀ vault header,
      Drawn so env path password recoveryKey vault header → vault.Sealable so env.save header →
      fs.lookup location.dir location.name = none → r.1 = .ok

theorem Drawn.path_eq {vault : Vault Hash} {header : FileHeader}
    (h : Drawn so env path password recoveryKey vault header) : vault.path = path := by
  have hvault := h.vault_eq
  rw [newVault] at hvault
  split at hvault
  · cases hvault
  · next start hinit =>
    have hstart : start.path = path := pvModelInit_path hinit
    cases hvault
    exact hstart

/-- **Making a vault under the lock**: a save of the new vault, or nothing. -/
theorem createLocked_spec [DecidableEq Hash] (hinj : Function.Injective so.generichash)
    (htidy : fs.Tidy location) (hrefl : ∀ fs, G fs fs)
    (hG : ∀ vault header, Drawn so env path password recoveryKey vault header →
      (sealVault so env.save (vault.stamped env.save.now) header).1 = .ok → ∀ a b,
      (savePlan so env.save location vault header true (fs.active location)).Step a b → G a b) :
    (files faults Alone G).wp (createLocked so host env path password recoveryKey location)
      (CreateResult so faults env path password recoveryKey location fs) fs := by
  -- The exits before the save.
  have hexit : ∀ status : PvStatus, ¬status.Committed →
      (faults = false → fs.lookup location.dir location.name = none → ∀ vault header,
        ¬Drawn so env path password recoveryKey vault header) →
      CreateResult so faults env path password recoveryKey location fs (status, none) fs :=
    fun status hbad hwhy => ⟨.inl rfl, fun _ => ⟨rfl, rfl⟩, fun h => absurd h hbad,
      fun hfalse hnone _ _ => ⟨hnone, fun vault header hdrawn _ hfree =>
        absurd hdrawn (hwhy hfalse hfree vault header)⟩⟩
  refine Sem.wp_then (pathEntryExistsAt_spec hrefl) ?_
  rintro r fs₁ ⟨rfl, herr, habsent, -⟩
  cases r with
  | error status =>
    obtain rfl := herr status rfl
    exact hexit _ (by decide) fun hfalse hfree => absurd (habsent hfalse hfree) nofun
  | ok found =>
  cases found with
  | true => exact hexit _ (by decide) fun hfalse hfree => absurd (habsent hfalse hfree) nofun
  | false =>
  dsimp only
  split
  · next hvault =>
    exact hexit _ (newVault_refused hvault) fun _ _ vault header hdrawn =>
      absurd (hvault.symm.trans hdrawn.vault_eq) nofun
  next vault hvault =>
  split
  · next header hheader =>
    have hdrawn : Drawn so env path password recoveryKey vault header := ⟨hvault, hheader⟩
    refine Sem.wp_then (saveLocked_spec hinj htidy hrefl (hG vault header hdrawn)) ?_
    rintro ⟨status, saved, header'⟩ fs₂ hsave
    refine ⟨.inr ⟨vault, header, hdrawn, hsave.steps⟩, fun hbad => ?_, fun hgood => ?_,
      fun hfalse hnone hleads hshort => ?_⟩
    · exact ⟨if_neg hbad, (hsave.refused hbad).2.lookup_eq⟩
    · exact ⟨vault, header, saved, header', hdrawn, if_pos hgood, hsave.committed hgood⟩
    · have hclean := hsave.clean hfalse (Fs.NoScratch.roomy hnone) (hdrawn.path_eq.symm ▸ hleads) hshort
      refine ⟨hclean.noScratch hnone, fun vault' header' hdrawn' hsealable hfree => ?_⟩
      have hsame : Except.ok vault = Except.ok vault' := hvault.symm.trans hdrawn'.vault_eq
      have hsame' : (PvStatus.ok, header) = (.ok, header') := hheader.symm.trans hdrawn'.header_eq
      cases hsame
      cases hsame'
      exact hclean.fresh rfl hsealable hfree
  · next status _ hne hheader =>
    have hdurable : (newHeader so env password recoveryKey).1 ≠ .errDurability :=
      pvCryptoCreateHeader_ne_durability _ _ _ _ _ _ _
    rw [hheader] at hdurable
    refine hexit _ (not_or_intro hne hdurable) fun _ _ vault' header' hdrawn => ?_
    have hsame := hheader.symm.trans hdrawn.header_eq
    exact hne (Prod.mk.inj hsame).1

end Locked

end PVault
