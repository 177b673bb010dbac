import PVault.Snapshot

/-!
# What the store changes in the file system

Every step of the store belongs to one of a few kinds of change, each a relation between
the file systems before and after:

* `Fs.Quiet E` — work on temporaries: everything but the names in `E` and the files not yet
  published is the same.
* `Fs.Published` — one rename has given a file its final name.
* `Fs.Made` — a private directory was made or made private.
* `Fs.Pruned` — backups were removed from a directory.

All of them are `Fs.Evolves`: published files keep their content, directories stay, and the
log of renames only grows. What a kept name shows changes only when its binding does
(`Fs.Evolves.slot_eq`).
-/

namespace PVault

open Binary Conc

/-! ## Lookups after an update -/

namespace Fs

variable {fs : Fs} {d d' i : Nat} {name name' : Bytes}

theorem lookup_bindFile :
    (fs.bindFile d name i).lookup d' name' =
      if d' = d ∧ name' = name ∧ d < fs.dirs.length then some (.file i) else fs.lookup d' name' := by
  simp only [lookup, bindFile, lookupIn_modify]
  rw [lookupIn]
  cases hdir : fs.dirs[d']? with
  | none =>
    have hlen : fs.dirs.length ≤ d' := List.getElem?_eq_none_iff.mp hdir
    rw [if_neg (by rintro ⟨rfl, -, hlt⟩; omega)]
    rfl
  | some dir =>
    have hlt : d' < fs.dirs.length := (List.getElem?_eq_some_iff.mp hdir).1
    simp only [Option.bind_some]
    by_cases hd : d = d'
    · subst hd
      rw [if_pos rfl]
      by_cases hname : name' = name
      · subst hname
        rw [if_pos ⟨rfl, rfl, hlt⟩, AList.lookup_insert]
      · rw [if_neg (fun h => hname h.2.1), AList.lookup_insert_ne hname]
    · rw [if_neg hd, if_neg (fun h => hd h.1.symm)]

theorem lookup_unbind :
    (fs.unbind d name).lookup d' name' =
      if d' = d ∧ name' = name then none else fs.lookup d' name' := by
  simp only [lookup, unbind, lookupIn_modify]
  rw [lookupIn]
  cases hdir : fs.dirs[d']? with
  | none => exact (ite_self none).symm
  | some dir =>
    simp only [Option.bind_some]
    by_cases hd : d = d'
    · subst hd
      rw [if_pos rfl]
      by_cases hname : name' = name
      · subst hname
        rw [if_pos ⟨rfl, rfl⟩, AList.lookup_erase]
      · rw [if_neg (fun h => hname h.2), AList.lookup_erase_ne hname]
    · rw [if_neg hd, if_neg (fun h => hd h.1.symm)]

@[simp] theorem lookup_dropLink {node : Option Node} :
    (fs.dropLink node).lookup d name = fs.lookup d name := rfl

theorem inodes_setInode {f : Inode → Inode} (j : Nat) :
    (fs.setInode i f).inodes[j]? = fs.inodes[j]?.map fun n => if i = j then f n else n := by
  rw [setInode, List.getElem?_modify]
  rfl

/-- What `fstat` reports about a directory. -/
def statDir (fs : Fs) (d : Nat) : Option DirStat := fs.dirs[d]?.map fun dir => ⟨dir.own, dir.mode⟩

theorem statDir_bindFile : (fs.bindFile d name i).statDir d' = fs.statDir d' := by
  simp only [statDir, bindFile, List.getElem?_modify]
  cases fs.dirs[d']? with
  | none => rfl
  | some dir =>
    by_cases hd : d = d'
    · simp [hd]
    · simp [hd]

theorem statDir_unbind : (fs.unbind d name).statDir d' = fs.statDir d' := by
  simp only [statDir, unbind, List.getElem?_modify]
  cases fs.dirs[d']? with
  | none => rfl
  | some dir =>
    by_cases hd : d = d'
    · simp [hd]
    · simp [hd]

end Fs

/-! ## Evolution -/

/-- The name does not lead to a file that is still being written. -/
def Fs.Kept (fs : Fs) (d : Nat) (name : Bytes) : Prop :=
  ∀ i, fs.lookup d name = some (.file i) → ∃ n, fs.inodes[i]? = some n ∧ n.published = true

/-- Published files keep all but the number of their names, directories stay where they
are, and renames are not forgotten. -/
structure Fs.Evolves (a b : Fs) : Prop where
  cwd_eq : b.cwd = a.cwd
  dir_mono : ∀ d name e, a.lookup d name = some (.dir e) → b.lookup d name = some (.dir e)
  files : ∀ (i : Nat) (n : Inode), n.published = true → a.inodes[i]? = some n →
    ∃ m, b.inodes[i]? = some m ∧ m = { n with nlink := m.nlink }
  log_suffix : a.log <:+ b.log

namespace Fs.Evolves

variable {a b c : Fs} {d : Nat} {name : Bytes}

protected theorem refl (a : Fs) : Fs.Evolves a a :=
  ⟨rfl, fun _ _ _ h => h, fun _ n _ h => ⟨n, h, rfl⟩, List.suffix_refl _⟩

protected theorem trans (h : Fs.Evolves a b) (h' : Fs.Evolves b c) : Fs.Evolves a c where
  cwd_eq := h'.cwd_eq.trans h.cwd_eq
  dir_mono d name e hlook := h'.dir_mono d name e (h.dir_mono d name e hlook)
  files i n hpub hn := by
    obtain ⟨m, hm, heq⟩ := h.files i n hpub hn
    obtain ⟨m', hm', heq'⟩ := h'.files i m (by rw [heq]; exact hpub) hm
    exact ⟨m', hm', by rw [heq', heq]⟩
  log_suffix := h.log_suffix.trans h'.log_suffix

theorem walk_eq (h : Fs.Evolves a b) {cs : List Bytes} :
    ∀ {d e : Nat}, a.walk d cs = some e → b.walk d cs = some e := by
  induction cs with
  | nil => exact fun hwalk => hwalk
  | cons c cs ih =>
    intro d e hwalk
    rw [Fs.walk] at hwalk ⊢
    split at hwalk
    · next x hx =>
      rw [h.dir_mono d c x hx]
      exact ih hwalk
    · cases hwalk

/-- A path that leads to a directory keeps leading there. -/
theorem resolve_eq (h : Fs.Evolves a b) {path : Bytes} (hres : a.resolve path = some d) :
    b.resolve path = some d := by
  rw [Fs.resolve, Fs.origin] at hres ⊢
  rw [h.cwd_eq]
  exact h.walk_eq hres

/-- The path of a file leads where it led, as long as its directory keeps its owner and mode. -/
theorem leadsTo (h : Fs.Evolves a b) {path : Bytes} {location : Location}
    (hstat : b.statDir location.dir = a.statDir location.dir) (hleads : a.LeadsTo path location) :
    b.LeadsTo path location := by
  obtain ⟨parent, dir, hsplit, hresolve, hdir, hparent⟩ := hleads
  rw [Fs.statDir, Fs.statDir, hdir] at hstat
  obtain ⟨dir', hdir', heq⟩ := Option.map_eq_some_iff.mp hstat
  obtain ⟨hown, hmode⟩ := DirStat.mk.inj heq
  exact ⟨parent, dir', hsplit, h.resolve_eq hresolve, hdir', by
    rw [Dir.isParent, hown, hmode]; exact hparent⟩

/-- A name whose binding is unchanged shows what it showed. -/
theorem slot_eq (h : Fs.Evolves a b) (hkept : a.Kept d name)
    (hlook : b.lookup d name = a.lookup d name) :
    b.Kept d name ∧ b.slot d name = a.slot d name := by
  refine ⟨fun i hi => ?_, ?_⟩
  · rw [hlook] at hi
    obtain ⟨n, hn, hpub⟩ := hkept i hi
    obtain ⟨m, hm, heq⟩ := h.files i n hpub hn
    exact ⟨m, hm, by rw [heq]; exact hpub⟩
  · rw [Fs.slot, Fs.slot, hlook]
    rcases hi : a.lookup d name with _ | ⟨i⟩ | _ | _
    · rfl
    · obtain ⟨n, hn, hpub⟩ := hkept i hi
      obtain ⟨m, hm, heq⟩ := h.files i n hpub hn
      simp only [hn, hm]
      rw [heq]
    · rfl
    · rfl

end Fs.Evolves

/-! ## Quiet changes -/

/-- The two file systems agree outside the names in `E` and on all published files. -/
structure Fs.Quiet (E : Nat → Bytes → Prop) (a b : Fs) : Prop where
  cwd_eq : b.cwd = a.cwd
  statDir_eq : ∀ d, b.statDir d = a.statDir d
  lookup_eq : ∀ d name, ¬E d name → b.lookup d name = a.lookup d name
  dir_iff : ∀ d name e, b.lookup d name = some (.dir e) ↔ a.lookup d name = some (.dir e)
  inode_iff : ∀ (i : Nat) (n : Inode), n.published = true → (b.inodes[i]? = some n ↔ a.inodes[i]? = some n)
  log_eq : b.log = a.log

namespace Fs.Quiet

variable {E : Nat → Bytes → Prop} {a b c : Fs}

protected theorem refl (a : Fs) : Fs.Quiet E a a :=
  ⟨rfl, fun _ => rfl, fun _ _ _ => rfl, fun _ _ _ => Iff.rfl, fun _ _ _ => Iff.rfl, rfl⟩

protected theorem symm (h : Fs.Quiet E a b) : Fs.Quiet E b a :=
  ⟨h.cwd_eq.symm, fun d => (h.statDir_eq d).symm, fun d n hn => (h.lookup_eq d n hn).symm,
    fun d n e => (h.dir_iff d n e).symm, fun i n hn => (h.inode_iff i n hn).symm, h.log_eq.symm⟩

protected theorem trans (h : Fs.Quiet E a b) (h' : Fs.Quiet E b c) : Fs.Quiet E a c :=
  ⟨h'.cwd_eq.trans h.cwd_eq, fun d => (h'.statDir_eq d).trans (h.statDir_eq d),
    fun d n hn => (h'.lookup_eq d n hn).trans (h.lookup_eq d n hn),
    fun d n e => (h'.dir_iff d n e).trans (h.dir_iff d n e),
    fun i n hn => (h'.inode_iff i n hn).trans (h.inode_iff i n hn), h'.log_eq.trans h.log_eq⟩

variable {d : Nat} {name : Bytes}

theorem evolves (h : Fs.Quiet E a b) : Fs.Evolves a b where
  cwd_eq := h.cwd_eq
  dir_mono d name e := (h.dir_iff d name e).mpr
  files i n hpub hn := ⟨n, (h.inode_iff i n hpub).mpr hn, rfl⟩
  log_suffix := by simp [h.log_eq]

theorem kept (h : Fs.Quiet E a b) (hE : ¬E d name) (hkept : a.Kept d name) : b.Kept d name :=
  (h.evolves.slot_eq hkept (h.lookup_eq d name hE)).1

theorem slot_eq (h : Fs.Quiet E a b) (hE : ¬E d name) (hkept : a.Kept d name) :
    b.slot d name = a.slot d name :=
  (h.evolves.slot_eq hkept (h.lookup_eq d name hE)).2

theorem shows_iff {Hash : Type} {so : Sodium Hash} {disk : DiskFile Hash} (h : Fs.Quiet E a b)
    (hE : ¬E d name) (hkept : a.Kept d name) :
    b.Shows so d name disk ↔ a.Shows so d name disk := by
  -- Kept files are published, so the inode behind the name is the same on both sides.
  refine ⟨fun ⟨i, n, hlook, hn, hrest⟩ => ?_, fun ⟨i, n, hlook, hn, hrest⟩ => ?_⟩
  · rw [h.lookup_eq d name hE] at hlook
    obtain ⟨m, hm, hpub⟩ := hkept i hlook
    rw [(h.inode_iff i m hpub).mpr hm] at hn
    cases hn
    exact ⟨i, _, hlook, hm, hrest⟩
  · obtain ⟨m, hm, hpub⟩ := hkept i hlook
    rw [hn] at hm
    cases hm
    exact ⟨i, n, (h.lookup_eq d name hE).trans hlook, (h.inode_iff i n hpub).mpr hn, hrest⟩

end Fs.Quiet

/-- Creating a file under an exempt name is quiet. -/
theorem Fs.quiet_create {E : Nat → Bytes → Prop} {fs : Fs} {d : Nat} {name : Bytes}
    (hE : E d name) (hnew : fs.lookup d name = none) : Fs.Quiet E fs (fs.create d name) where
  cwd_eq := rfl
  statDir_eq d' := Fs.statDir_bindFile (i := fs.inodes.length)
  lookup_eq d' name' hne := by
    refine (Fs.lookup_bindFile (i := fs.inodes.length)).trans (if_neg ?_)
    rintro ⟨rfl, rfl, -⟩
    exact hne hE
  dir_iff d' name' e := by
    rw [show (fs.create d name).lookup d' name' = _ from
      Fs.lookup_bindFile (i := fs.inodes.length)]
    split
    · next h =>
      rw [h.1, h.2.1, hnew]
      exact ⟨fun h => (by cases h), fun h => (by cases h)⟩
    · exact Iff.rfl
  inode_iff i n hn := by
    show (fs.inodes ++ [newInode])[i]? = some n ↔ _
    rcases Nat.lt_trichotomy i fs.inodes.length with hlt | rfl | hgt
    · rw [List.getElem?_append_left hlt]
    · rw [List.getElem?_append_right (Nat.le_refl _), Nat.sub_self,
        List.getElem?_eq_none (Nat.le_refl _)]
      refine ⟨fun h => ?_, fun h => by cases h⟩
      cases h
      cases hn
    · rw [List.getElem?_eq_none (by simpa using Nat.succ_le_of_lt hgt),
        List.getElem?_eq_none (Nat.le_of_lt hgt)]
  log_eq := rfl

/-- Changing a file that has not been published is quiet. -/
theorem Fs.quiet_setInode {E : Nat → Bytes → Prop} {fs : Fs} {i : Nat} {n : Inode}
    {f : Inode → Inode} (hn : fs.inodes[i]? = some n) (hpub : n.published = false)
    (hf : (f n).published = false) : Fs.Quiet E fs (fs.setInode i f) where
  cwd_eq := rfl
  statDir_eq _ := rfl
  lookup_eq _ _ _ := rfl
  dir_iff _ _ _ := Iff.rfl
  inode_iff j m hm := by
    rw [Fs.inodes_setInode]
    by_cases hij : i = j
    · subst hij
      rw [hn]
      simp only [Option.map_some, if_true, Option.some.injEq]
      refine ⟨fun h => ?_, fun h => ?_⟩
      · rw [h, hm] at hf; cases hf
      · rw [h, hm] at hpub; cases hpub
    · simp [hij]
  log_eq := rfl

/-- Removing an exempt name is quiet. -/
theorem Fs.quiet_unbind {E : Nat → Bytes → Prop} {fs : Fs} {d : Nat} {name : Bytes}
    (hE : E d name) (hdir : ∀ e, fs.lookup d name ≠ some (.dir e)) :
    Fs.Quiet E fs (fs.unbind d name) where
  cwd_eq := rfl
  statDir_eq _ := Fs.statDir_unbind
  lookup_eq d' name' hne := by
    refine Fs.lookup_unbind.trans (if_neg ?_)
    rintro ⟨rfl, rfl⟩
    exact hne hE
  dir_iff d' name' e := by
    rw [Fs.lookup_unbind]
    split
    · next h =>
      rw [h.1, h.2]
      exact ⟨fun h => (by cases h), fun h => absurd h (hdir e)⟩
    · exact Iff.rfl
  inode_iff _ _ _ := Iff.rfl
  log_eq := rfl

/-! ## The rename that publishes -/

/-- The file `i`, now the inode `n`, got the name `name` in the directory `d`; the file it
replaced lost a name, and nothing else changed outside `E`. -/
structure Fs.Published (E : Nat → Bytes → Prop) (d : Nat) (name : Bytes) (i : Nat) (n : Inode)
    (a b : Fs) : Prop where
  cwd_eq : b.cwd = a.cwd
  statDir_eq : ∀ e, b.statDir e = a.statDir e
  lookup_eq : b.lookup d name = some (.file i)
  lookup_ne : ∀ e other, ¬E e other → (e, other) ≠ (d, name) → b.lookup e other = a.lookup e other
  dir_iff : ∀ e other x, b.lookup e other = some (.dir x) ↔ a.lookup e other = some (.dir x)
  inode_eq : b.inodes[i]? = some n
  published : n.published = true
  fresh : ∀ m : Inode, a.inodes[i]? = some m → m.published = false
  old : ∀ (j : Nat) (m : Inode), m.published = true → a.inodes[j]? = some m →
    ∃ m', b.inodes[j]? = some m' ∧ m' = { m with nlink := m'.nlink } ∧
      (a.lookup d name ≠ some (.file j) → m' = m)
  log_eq : ∃ suffix, b.log =
    ⟨d, temporaryName name suffix, name, a.slot d name, n.data, n.synced⟩ :: a.log

theorem Fs.inodes_dropLink {fs : Fs} {node : Option Node} (j : Nat) :
    (fs.dropLink node).inodes[j]? = fs.inodes[j]?.map fun m =>
      if node = some (.file j) then { m with nlink := m.nlink - 1 } else m := by
  rcases node with _ | ⟨i⟩ | _ | _
  · cases h : fs.inodes[j]? <;> simp [Fs.dropLink, h]
  · rw [Fs.dropLink, List.getElem?_modify]
    simp
  · cases h : fs.inodes[j]? <;> simp [Fs.dropLink, h]
  · cases h : fs.inodes[j]? <;> simp [Fs.dropLink, h]

theorem Fs.lookup_lt {fs : Fs} {d : Nat} {name : Bytes} {node : Node}
    (h : fs.lookup d name = some node) : d < fs.dirs.length := by
  rw [Fs.lookup, lookupIn] at h
  cases hdir : fs.dirs[d]? with
  | none => rw [hdir] at h; cases h
  | some dir => exact (List.getElem?_eq_some_iff.mp hdir).1

theorem Fs.published_rename {E : Nat → Bytes → Prop} {fs : Fs} {d i : Nat} {name : Bytes}
    {suffix : UInt32} {n : Inode} (hE : E d (temporaryName name suffix))
    (hbound : fs.lookup d (temporaryName name suffix) = some (.file i))
    (hn : fs.inodes[i]? = some n) (hpub : n.published = false) (hkept : fs.Kept d name)
    (hdir : ∀ e, fs.lookup d name ≠ some (.dir e)) :
    Fs.Published E d name i { n with published := true } fs
      (fs.rename d (temporaryName name suffix) name i) := by
  have hlt : d < fs.dirs.length := Fs.lookup_lt hbound
  have hother : fs.lookup d name ≠ some (.file i) := by
    intro h
    obtain ⟨m, hm, hmpub⟩ := hkept i h
    rw [hn] at hm
    cases hm
    rw [hpub] at hmpub
    cases hmpub
  -- The inodes after the rename: one loses a name, one is published.
  have hinodes : ∀ j : Nat, (fs.rename d (temporaryName name suffix) name i).inodes[j]? =
      ((fs.dropLink (fs.lookup d name)).setInode i fun m => { m with published := true }).inodes[j]? :=
    fun _ => rfl
  refine ⟨?_, fun e => ?_, ?_, fun e other hne hother' => ?_, fun e other x => ?_, ?_, rfl,
    fun m hm => ?_, fun j m hm hj => ?_, suffix, ?_⟩
  · rfl
  · exact (Fs.statDir_bindFile (i := i)).trans Fs.statDir_unbind
  · refine (Fs.lookup_bindFile (i := i)).trans (if_pos ⟨rfl, rfl, ?_⟩)
    show d < (fs.dirs.modify d _).length
    rwa [List.length_modify]
  · refine (Fs.lookup_bindFile (i := i)).trans ((if_neg ?_).trans (Fs.lookup_unbind.trans (if_neg ?_)))
    · rintro ⟨rfl, rfl, -⟩
      exact hother' rfl
    · rintro ⟨rfl, rfl⟩
      exact hne hE
  · rw [show (fs.rename d (temporaryName name suffix) name i).lookup e other = _ from
      Fs.lookup_bindFile (i := i)]
    split
    · next h =>
      rw [h.1, h.2.1]
      exact ⟨fun h => (by cases h), fun h => absurd h (hdir x)⟩
    · rw [Fs.lookup_unbind]
      split
      · next h =>
        rw [h.1, h.2, hbound]
        exact ⟨fun h => (by cases h), fun h => (by cases h)⟩
      · exact Iff.rfl
  · rw [hinodes, Fs.inodes_setInode, Fs.inodes_dropLink, hn]
    simp [hother]
  · rw [hn] at hm
    cases hm
    exact hpub
  · have hij : i ≠ j := by
      rintro rfl
      rw [hn] at hj
      cases hj
      rw [hpub] at hm
      cases hm
    rw [hinodes, Fs.inodes_setInode, Fs.inodes_dropLink, hj]
    simp only [Option.map_some, if_neg hij]
    split
    · next h => exact ⟨_, rfl, rfl, fun hne => absurd h hne⟩
    · exact ⟨m, rfl, rfl, fun _ => rfl⟩
  · simp only [Fs.rename, hn, Option.map_some, Option.getD_some]

namespace Fs.Published

variable {E : Nat → Bytes → Prop} {a b c : Fs} {d e i : Nat} {name other : Bytes} {n : Inode}

/-- Quiet work before a rename does not show in what the rename did. -/
theorem after_quiet (h : Fs.Published E d name i n b c) (hquiet : Fs.Quiet E a b) (hE : ¬E d name)
    (hkept : a.Kept d name) : Fs.Published E d name i n a c where
  cwd_eq := h.cwd_eq.trans hquiet.cwd_eq
  statDir_eq e := (h.statDir_eq e).trans (hquiet.statDir_eq e)
  lookup_eq := h.lookup_eq
  lookup_ne e other hne hother := (h.lookup_ne e other hne hother).trans (hquiet.lookup_eq e other hne)
  dir_iff e other x := (h.dir_iff e other x).trans (hquiet.dir_iff e other x)
  inode_eq := h.inode_eq
  published := h.published
  fresh m hm := by
    cases hpub : m.published with
    | false => rfl
    | true => rw [← h.fresh m ((hquiet.inode_iff i m hpub).mpr hm), hpub]
  old j m hm hj := by
    obtain ⟨m', hm', heq, hsame⟩ := h.old j m hm ((hquiet.inode_iff j m hm).mpr hj)
    exact ⟨m', hm', heq, fun hne => hsame (by rwa [hquiet.lookup_eq d name hE])⟩
  log_eq := by
    obtain ⟨suffix, hlog⟩ := h.log_eq
    exact ⟨suffix, by rw [hlog, hquiet.slot_eq hE hkept, hquiet.log_eq]⟩

theorem slot_eq (h : Fs.Published E d name i n a b) : b.slot d name = .holds n.data := by
  simp only [Fs.slot, h.lookup_eq, h.inode_eq]

theorem kept (h : Fs.Published E d name i n a b) : b.Kept d name := by
  intro j hj
  rw [h.lookup_eq] at hj
  cases hj
  exact ⟨n, h.inode_eq, h.published⟩

theorem evolves (h : Fs.Published E d name i n a b) : Fs.Evolves a b where
  cwd_eq := h.cwd_eq
  dir_mono e other x := (h.dir_iff e other x).mpr
  files j m hpub hm := by
    obtain ⟨m', hm', heq, -⟩ := h.old j m hpub hm
    exact ⟨m', hm', heq⟩
  log_suffix := by
    obtain ⟨suffix, hlog⟩ := h.log_eq
    rw [hlog]
    exact List.suffix_cons _ _

end Fs.Published

/-! ## Directories -/

/-- The directory `name` in `d` was made, or its mode set. -/
structure Fs.Made (d : Nat) (name : Bytes) (a b : Fs) : Prop where
  cwd_eq : b.cwd = a.cwd
  lookup_eq : ∀ e other, a.lookup e other ≠ none ∨ (e, other) ≠ (d, name) →
    b.lookup e other = a.lookup e other
  lookup_cases : b.lookup d name = a.lookup d name ∨
    ∃ e, b.lookup d name = some (.dir e) ∧ ∀ other, a.lookup e other = none
  statDir_eq : ∀ e, b.statDir e = a.statDir e ∨ b.lookup d name = some (.dir e)
  /-- directories keep their owner -/
  own_eq : ∀ e st, a.statDir e = some st → ∃ st', b.statDir e = some st' ∧ st'.own = st.own
  /-- a new directory is private to its maker -/
  new_private : ∀ e, a.lookup d name = none → b.lookup d name = some (.dir e) →
    b.statDir e = some ⟨true, 0o700⟩
  /-- the mode that is set is 0700 -/
  mode_eq : ∀ e st, b.statDir e = some st → a.statDir e = some st ∨ st.mode = 0o700
  inodes_eq : b.inodes = a.inodes
  log_eq : b.log = a.log

namespace Fs.Made

variable {a b c : Fs} {d e : Nat} {name other : Bytes}

protected theorem refl (a : Fs) : Fs.Made d name a a :=
  ⟨rfl, fun _ _ _ => rfl, .inl rfl, fun _ => .inl rfl, fun _ st h => ⟨st, h, rfl⟩,
    fun _ hnone hdir => absurd (hnone.symm.trans hdir) nofun, fun _ _ h => .inl h, rfl, rfl⟩

/-- A private directory stays private. -/
theorem stays_private (h : Fs.Made d name a b) (ha : a.statDir e = some ⟨true, 0o700⟩) :
    b.statDir e = some ⟨true, 0o700⟩ := by
  obtain ⟨⟨own, mode⟩, hst, rfl⟩ := h.own_eq e _ ha
  rcases h.mode_eq e _ hst with hsame | rfl
  · rw [hst, ← hsame, ha]
  · exact hst

protected theorem trans (h : Fs.Made d name a b) (h' : Fs.Made d name b c) : Fs.Made d name a c where
  cwd_eq := h'.cwd_eq.trans h.cwd_eq
  lookup_eq e other hne := by
    have hab := h.lookup_eq e other hne
    rw [h'.lookup_eq e other (by rwa [hab]), hab]
  lookup_cases := by
    rcases h'.lookup_cases with hbc | hdir
    · rw [hbc]
      exact h.lookup_cases
    · obtain ⟨e, he, hnew⟩ := hdir
      refine .inr ⟨e, he, fun other => ?_⟩
      by_contra hne
      rw [← h.lookup_eq e other (.inl hne)] at hne
      exact hne (hnew other)
  statDir_eq e := by
    rcases h'.statDir_eq e with hbc | hc
    · rcases h.statDir_eq e with hab | hb
      · exact .inl (hbc.trans hab)
      · exact .inr ((h'.lookup_eq d name (.inl (by rw [hb]; simp))).trans hb)
    · exact .inr hc
  own_eq e st hst := by
    obtain ⟨st₁, hst₁, hown₁⟩ := h.own_eq e st hst
    obtain ⟨st₂, hst₂, hown₂⟩ := h'.own_eq e st₁ hst₁
    exact ⟨st₂, hst₂, hown₂.trans hown₁⟩
  new_private e hnone hdir := by
    by_cases hb : b.lookup d name = none
    · exact h'.new_private e hb hdir
    · exact h'.stays_private (h.new_private e hnone ((h'.lookup_eq d name (.inl hb)).symm.trans hdir))
  mode_eq e st hst := (h'.mode_eq e st hst).elim (h.mode_eq e st) .inr
  inodes_eq := h'.inodes_eq.trans h.inodes_eq
  log_eq := h'.log_eq.trans h.log_eq

/-- No file gets a name. -/
theorem lookup_file {i : Nat} (h : Fs.Made d name a b) (hlook : b.lookup e other = some (.file i)) :
    a.lookup e other = some (.file i) := by
  by_cases heq : (e, other) = (d, name)
  · obtain ⟨rfl, rfl⟩ := Prod.mk.inj heq
    rcases h.lookup_cases with hsame | ⟨x, hx, -⟩
    · rwa [← hsame]
    · rw [hx] at hlook
      cases hlook
  · rwa [h.lookup_eq e other (.inr heq)] at hlook

theorem kept (h : Fs.Made d name a b) (hkept : a.Kept e other) : b.Kept e other := by
  intro i hi
  rw [h.inodes_eq]
  by_cases hname : (e, other) = (d, name)
  · obtain ⟨rfl, rfl⟩ := Prod.mk.inj hname
    rcases h.lookup_cases with heq | ⟨x, hx, -⟩
    · exact hkept i (heq ▸ hi)
    · rw [hx] at hi
      cases hi
  · exact hkept i (by rwa [h.lookup_eq e other (.inr hname)] at hi)

theorem shows_iff {Hash : Type} {so : Sodium Hash} {disk : DiskFile Hash} (h : Fs.Made d name a b)
    (he : e ≠ d) : b.Shows so e other disk ↔ a.Shows so e other disk := by
  rw [Fs.Shows, Fs.Shows, h.inodes_eq, h.lookup_eq e other (.inr fun heq => he (Prod.mk.inj heq).1)]

theorem evolves (h : Fs.Made d name a b) : Fs.Evolves a b where
  cwd_eq := h.cwd_eq
  dir_mono e other x hx := by rw [h.lookup_eq e other (.inl (by rw [hx]; simp)), hx]
  files i n _ hn := ⟨n, by rw [h.inodes_eq]; exact hn, rfl⟩
  log_suffix := by simp [h.log_eq]

end Fs.Made

theorem Fs.lookup_addDir {fs : Fs} {d e : Nat} {name other : Bytes} (hlt : d < fs.dirs.length) :
    (fs.addDir d name).lookup e other =
      if e = d ∧ other = name then some (.dir fs.dirs.length) else fs.lookup e other := by
  simp only [Fs.lookup, Fs.addDir, Fs.lookupIn_append_newDir, Fs.lookupIn_modify]
  rw [lookupIn]
  cases hdir : fs.dirs[e]? with
  | none =>
    have hlen : fs.dirs.length ≤ e := List.getElem?_eq_none_iff.mp hdir
    rw [if_neg (by rintro ⟨rfl, -⟩; omega)]
    rfl
  | some dir =>
    simp only [Option.bind_some]
    by_cases hd : d = e
    · subst hd
      rw [if_pos rfl]
      by_cases hname : other = name
      · subst hname
        rw [if_pos ⟨rfl, rfl⟩, AList.lookup_insert]
      · rw [if_neg (fun h => hname h.2), AList.lookup_insert_ne hname]
    · rw [if_neg hd, if_neg (fun h => hd h.1.symm)]

/-- A new directory comes after the others. -/
theorem Fs.statDir_addDir {fs : Fs} {d e : Nat} {name : Bytes} :
    (fs.addDir d name).statDir e =
      if e = fs.dirs.length then some ⟨true, 0o700⟩ else fs.statDir e := by
  simp only [Fs.statDir, Fs.addDir]
  rcases Nat.lt_trichotomy e fs.dirs.length with hlt | rfl | hgt
  · rw [if_neg (Nat.ne_of_lt hlt), List.getElem?_append_left (by rwa [List.length_modify]),
      List.getElem?_modify]
    cases fs.dirs[e]? with
    | none => rfl
    | some dir =>
      by_cases hd : d = e
      · simp [hd]
      · simp [hd]
  · rw [if_pos rfl, List.getElem?_append_right (by rw [List.length_modify]), List.length_modify,
      Nat.sub_self]
    rfl
  · rw [if_neg (Nat.ne_of_gt hgt), List.getElem?_eq_none (by simp; omega),
      List.getElem?_eq_none (Nat.le_of_lt hgt)]

theorem Fs.made_addDir {fs : Fs} {d : Nat} {name : Bytes} (hlt : d < fs.dirs.length)
    (hnone : fs.lookup d name = none) : Fs.Made d name fs (fs.addDir d name) where
  cwd_eq := rfl
  lookup_eq e other hne := by
    refine (Fs.lookup_addDir hlt).trans (if_neg ?_)
    rintro ⟨rfl, rfl⟩
    rcases hne with h | h
    · exact h hnone
    · exact h rfl
  lookup_cases := by
    refine .inr ⟨_, (Fs.lookup_addDir hlt).trans (if_pos ⟨rfl, rfl⟩), fun other => ?_⟩
    by_contra hne
    obtain ⟨node, hnode⟩ := Option.ne_none_iff_exists'.mp hne
    exact Nat.lt_irrefl _ (Fs.lookup_lt hnode)
  statDir_eq e := by
    rw [Fs.statDir_addDir]
    split
    · next heq =>
      rw [heq]
      exact .inr ((Fs.lookup_addDir hlt).trans (if_pos ⟨rfl, rfl⟩))
    · exact .inl rfl
  own_eq e st hst := by
    have hold : e ≠ fs.dirs.length := by
      rintro rfl
      rw [Fs.statDir, List.getElem?_eq_none (Nat.le_refl _)] at hst
      cases hst
    exact ⟨st, by rw [Fs.statDir_addDir, if_neg hold, hst], rfl⟩
  new_private e _ hdir := by
    rw [Fs.lookup_addDir hlt, if_pos ⟨rfl, rfl⟩] at hdir
    cases hdir
    exact Fs.statDir_addDir.trans (if_pos rfl)
  mode_eq e st hst := by
    rw [Fs.statDir_addDir] at hst
    split at hst
    · cases hst
      exact .inr rfl
    · exact .inl hst
  inodes_eq := rfl
  log_eq := rfl

theorem Fs.lookup_chmodDir {fs : Fs} {d e mode : Nat} {name : Bytes} :
    (fs.chmodDir e mode).lookup d name = fs.lookup d name := by
  simp only [Fs.lookup, Fs.chmodDir, Fs.lookupIn_modify]
  rw [lookupIn]
  cases fs.dirs[d]? with
  | none => rfl
  | some dir =>
    simp only [Option.bind_some]
    split <;> rfl

theorem Fs.statDir_chmodDir {fs : Fs} {d e mode : Nat} :
    (fs.chmodDir e mode).statDir d =
      (fs.statDir d).map fun st => if d = e then { st with mode := mode } else st := by
  simp only [Fs.statDir, Fs.chmodDir, List.getElem?_modify]
  cases fs.dirs[d]? with
  | none => rfl
  | some dir =>
    by_cases hd : e = d
    · simp [hd]
    · have hd' : ¬d = e := fun h => hd h.symm
      simp [hd, hd']

theorem Fs.made_chmodDir {fs : Fs} {d e : Nat} {name : Bytes}
    (hlook : fs.lookup d name = some (.dir e)) : Fs.Made d name fs (fs.chmodDir e 0o700) where
  cwd_eq := rfl
  lookup_eq _ _ _ := Fs.lookup_chmodDir
  lookup_cases := .inl Fs.lookup_chmodDir
  statDir_eq x := by
    rw [Fs.statDir_chmodDir, Fs.lookup_chmodDir]
    by_cases hx : x = e
    · rw [hx]
      exact .inr hlook
    · left
      cases fs.statDir x <;> simp [hx]
  own_eq x st hst := by
    refine ⟨_, by rw [Fs.statDir_chmodDir, hst, Option.map_some], ?_⟩
    split <;> rfl
  new_private x hnone _ := absurd (hnone.symm.trans hlook) nofun
  mode_eq x st hst := by
    rw [Fs.statDir_chmodDir] at hst
    obtain ⟨st', hst', rfl⟩ := Option.map_eq_some_iff.mp hst
    split
    · exact .inr rfl
    · exact .inl hst'
  inodes_eq := rfl
  log_eq := rfl

/-! ## Pruning -/

/-- Names in the directory `d` that satisfy `P` were removed. -/
structure Fs.Pruned (d : Nat) (P : Bytes → Prop) (a b : Fs) : Prop where
  cwd_eq : b.cwd = a.cwd
  statDir_eq : ∀ e, b.statDir e = a.statDir e
  lookup_eq : ∀ e other, ¬(e = d ∧ P other) → b.lookup e other = a.lookup e other
  lookup_cases : ∀ other, b.lookup d other = a.lookup d other ∨
    b.lookup d other = none ∧ ∃ i, a.lookup d other = some (.file i)
  files : ∀ (i : Nat) (n : Inode), a.inodes[i]? = some n → ∃ m, b.inodes[i]? = some m ∧
    m = { n with nlink := m.nlink } ∧
      (m = n ∨ ∃ other, P other ∧ a.lookup d other = some (.file i))
  log_eq : b.log = a.log

namespace Fs.Pruned

variable {a b c : Fs} {d : Nat} {P : Bytes → Prop}

protected theorem refl (a : Fs) : Fs.Pruned d P a a :=
  ⟨rfl, fun _ => rfl, fun _ _ _ => rfl, fun _ => .inl rfl, fun _ n h => ⟨n, h, rfl, .inl rfl⟩, rfl⟩

theorem mono {P' : Bytes → Prop} (h : Fs.Pruned d P a b) (hP : ∀ name, P name → P' name) :
    Fs.Pruned d P' a b where
  cwd_eq := h.cwd_eq
  statDir_eq := h.statDir_eq
  lookup_eq e other hne := h.lookup_eq e other fun hbad => hne ⟨hbad.1, hP other hbad.2⟩
  lookup_cases := h.lookup_cases
  files i n hn := by
    obtain ⟨m, hm, heq, hwhy⟩ := h.files i n hn
    refine ⟨m, hm, heq, hwhy.imp_right ?_⟩
    rintro ⟨other, hother, hlook⟩
    exact ⟨other, hP other hother, hlook⟩
  log_eq := h.log_eq

protected theorem trans (h : Fs.Pruned d P a b) (h' : Fs.Pruned d P b c) : Fs.Pruned d P a c where
  cwd_eq := h'.cwd_eq.trans h.cwd_eq
  statDir_eq e := (h'.statDir_eq e).trans (h.statDir_eq e)
  lookup_eq e other hne := (h'.lookup_eq e other hne).trans (h.lookup_eq e other hne)
  lookup_cases other := by
    rcases h'.lookup_cases other with hbc | ⟨hc, i, hb⟩
    · rw [hbc]
      exact h.lookup_cases other
    · rcases h.lookup_cases other with hab | ⟨hb', -⟩
      · exact .inr ⟨hc, i, hab ▸ hb⟩
      · rw [hb'] at hb
        cases hb
  files i n hn := by
    obtain ⟨m, hm, heq, hwhy⟩ := h.files i n hn
    obtain ⟨m', hm', heq', hwhy'⟩ := h'.files i m hm
    refine ⟨m', hm', by rw [heq', heq], ?_⟩
    rcases hwhy' with rfl | ⟨other, hP, hother⟩
    · exact hwhy
    · refine .inr ⟨other, hP, ?_⟩
      rcases h.lookup_cases other with hab | ⟨hb, -⟩
      · rwa [hab] at hother
      · rw [hb] at hother
        cases hother
  log_eq := h'.log_eq.trans h.log_eq

theorem evolves (h : Fs.Pruned d P a b) : Fs.Evolves a b where
  cwd_eq := h.cwd_eq
  dir_mono e other x hx := by
    by_cases he : e = d
    · subst he
      rcases h.lookup_cases other with hab | ⟨-, i, hi⟩
      · rwa [hab]
      · rw [hi] at hx
        cases hx
    · rw [h.lookup_eq e other fun hbad => he hbad.1, hx]
  files i n _ hn := by
    obtain ⟨m, hm, heq, -⟩ := h.files i n hn
    exact ⟨m, hm, heq⟩
  log_suffix := by simp [h.log_eq]

end Fs.Pruned

/-- Pruning binds no name. -/
theorem Fs.Pruned.lookup_of_bound {a b : Fs} {d e : Nat} {P : Bytes → Prop} {other : Bytes} {node : Node}
    (h : Fs.Pruned d P a b) (hlook : b.lookup e other = some node) : a.lookup e other = some node := by
  by_cases he : e = d
  · subst he
    rcases h.lookup_cases other with hsame | ⟨hnone, -⟩
    · rwa [← hsame]
    · rw [hnone] at hlook
      cases hlook
  · rwa [h.lookup_eq e other fun hbad => he hbad.1] at hlook

theorem Fs.Pruned.kept {a b : Fs} {d e : Nat} {P : Bytes → Prop} {other : Bytes}
    (h : Fs.Pruned d P a b) (hkept : a.Kept e other) : b.Kept e other := by
  by_cases he : e = d
  · subst he
    rcases h.lookup_cases other with heq | ⟨hnone, -⟩
    · exact (h.evolves.slot_eq hkept heq).1
    · intro i hi
      rw [hnone] at hi
      cases hi
  · exact (h.evolves.slot_eq hkept (h.lookup_eq e other fun hbad => he hbad.1)).1

/-- Unlinking a file is pruning. -/
theorem Fs.pruned_unlink {fs : Fs} {d i : Nat} {name : Bytes} {P : Bytes → Prop} (hP : P name)
    (hlook : fs.lookup d name = some (.file i)) :
    Fs.Pruned d P fs ((fs.dropLink (some (.file i))).unbind d name) where
  cwd_eq := rfl
  statDir_eq _ := Fs.statDir_unbind
  lookup_eq e other hne := by
    refine Fs.lookup_unbind.trans (if_neg ?_)
    rintro ⟨rfl, rfl⟩
    exact hne ⟨rfl, hP⟩
  lookup_cases other := by
    rw [Fs.lookup_unbind, Fs.lookup_dropLink]
    split
    · next h => exact .inr ⟨rfl, i, by rw [h.2, hlook]⟩
    · exact .inl rfl
  files j n hn := by
    show ∃ m, (fs.dropLink (some (.file i))).inodes[j]? = some m ∧ _
    rw [Fs.inodes_dropLink, hn]
    simp only [Option.map_some]
    split
    · next h =>
      cases h
      exact ⟨_, rfl, rfl, .inr ⟨name, hP, hlook⟩⟩
    · exact ⟨n, rfl, rfl, .inl rfl⟩
  log_eq := rfl

end PVault
