import PVault.Find
import PVault.Display
import Mathlib.Data.List.Basic

/-!
# The internal picker (`src/ui.c`)

`pv_ui_pick_internal` redraws its list, waits for a key and acts on it, until a key ends the loop.
A list entry is a pointer to a record; here it is the record's position in the vault. The array of
matches is written over from its start at each redraw, so entries of an earlier query may stand
behind the ones that count.

What the terminal does is a parameter: for each turn of the loop the height of the window, what each
`getch` returned, and whether a signal had arrived.

* `buildMatches_spec` — the array holds the matching records, in order.
* `redraw_shows` — after a redraw the cursor is on a match, and its row is the highlighted one.
* `pickLoop_spec` — what holds over a whole run, from one turn (`turn_spec`).
* `picker_selects_highlighted_match` — the record selected is the highlighted one.
-/

namespace PVault

open Binary

/-! ## Matches -/

/-- `ui_record_matches`. -/
def uiRecordMatches (record : Record Bytes) (query : Bytes) : Bool :=
  if query.length = 0 then true
  else
    pvSliceContainsCstr record.title query true || pvSliceContainsCstr record.username query true ||
      record.urls.any (pvSliceContainsCstr · query true) ||
      record.tags.any (pvSliceContainsCstr · query true)

/-- An entry of `matches`: no record, or the one at this position of the vault. -/
abbrev RecordRef := Option Nat

section Matches

variable {Hash : Type}

/-- The loop of `build_matches`, with the position it has come to. -/
def buildLoop (arena : Arena) (query : Bytes) (capacity : Nat) :
    List (Record Slice) → Nat → List RecordRef → Nat → List RecordRef × Nat
  | [], _, entries, count => (entries, count)
  | r :: rs, i, entries, count =>
    if r.Live ∧ uiRecordMatches (r.map arena.deref) query = true then
      if count ≥ capacity then (entries, count)
      else buildLoop arena query capacity rs (i + 1) (entries.set count (some i)) (count + 1)
    else buildLoop arena query capacity rs (i + 1) entries count

/-- `build_matches`: the array and the number of entries that count. -/
def buildMatches (vault : Vault Hash) (query : Bytes) (entries : List RecordRef) (capacity : Nat) :
    List RecordRef × Nat :=
  buildLoop vault.arena query capacity vault.records 0 entries 0

end Matches

/-! ## Drawing -/

/-- `ui_add_safe_title`: what it writes. -/
def uiAddSafeTitle (record : Record Bytes) : Bytes :=
  (if record.flags &&& pvRecordFavorite ≠ 0 then 0x2a else 0x20) :: 0x20 ::
    match pvTextSanitize record.title (List.replicate pvMaxTitle 0) pvMaxTitle with
    | none => if record.title.length > 0 then [0x3f] else []
    | some (sanitized, sanitizedLen) => sanitized.take sanitizedLen

/-- A row of the list, as it is drawn. -/
structure Row where
  /-- the line of the window -/
  line : Nat
  /-- the entry it is for -/
  index : Nat
  record : RecordRef
  /-- the text, when there is a record -/
  title : Option Bytes
  /-- drawn with `A_REVERSE` -/
  highlighted : Bool

/-- What a redraw leaves on the window. -/
structure Screen where
  height : Int
  query : Bytes
  entries : List RecordRef
  matchCount : Nat
  current : Nat
  rows : List Row

/-- What the loop keeps from turn to turn. -/
structure Picker where
  /-- the text typed so far -/
  query : Bytes
  current : Nat
  entries : List RecordRef

section Draw

variable {Hash : Type}

/-- The row that is drawn for `i`. -/
def drawRow (vault : Vault Hash) (entries : List RecordRef) (first current i : Nat) : Row :=
  let record := (entries[first + i]?).join
  { line := i + 3
    index := first + i
    record := record
    title := (record.bind (vault.records[·]?)).map
      fun r => uiAddSafeTitle (r.map vault.arena.deref)
    highlighted := first + i = current }

/-- The loop that draws the list, with the number of rows that are left. -/
def drawRows (vault : Vault Hash) (entries : List RecordRef)
    (capacity first current matchCount : Nat) : Nat → Nat → Except PvStatus (List Row)
  | 0, _ => .ok []
  | n + 1, i =>
    if first + i < matchCount then
      if first + i ≥ capacity then .error .errState
      else
        (drawRows vault entries capacity first current matchCount n (i + 1)).map
          (drawRow vault entries first current i :: ·)
    else .ok []

/-- `visible`, for the height of the window. -/
def visibleRows (height : Int) : Nat := if height > 3 then (height - 3).toNat else 0

/-- `first`. -/
def firstRow (current visible : Nat) : Nat :=
  if current ≥ visible ∧ visible > 0 then current - visible + 1 else 0

/-- Where the cursor stands when there are so many matches. -/
def clampCurrent (current matchCount : Nat) : Nat :=
  if current ≥ matchCount ∧ matchCount > 0 then matchCount - 1 else current

/-- The part of the loop that redraws. -/
def redraw (vault : Vault Hash) (capacity : Nat) (height : Int) (p : Picker) :
    Except PvStatus Screen :=
  let found := buildMatches vault p.query p.entries capacity
  let current := clampCurrent p.current found.2
  let visible := visibleRows height
  (drawRows vault found.1 capacity (firstRow current visible) current found.2 visible 0).map
    fun rows =>
      { height := height
        query := p.query
        entries := found.1
        matchCount := found.2
        current := current
        rows := rows }

end Draw

/-! ## Keys -/

/-- `ERR`: no key yet. -/
def curseErr : Int := -1
/-- `KEY_DOWN`. -/
def keyDown : Int := 258
/-- `KEY_UP`. -/
def keyUp : Int := 259
/-- `KEY_BACKSPACE`. -/
def keyBackspace : Int := 263
/-- `KEY_ENTER`. -/
def keyEnter : Int := 343

/-- A call of `getch`, and whether `pv_ui_interrupted` was set after it. -/
structure Poll where
  key : Int
  interrupted : Bool

/-- What the terminal does in one turn of the loop. -/
structure Round where
  /-- `pv_ui_interrupted` at the start of the turn -/
  interrupted : Bool
  height : Int
  polls : List Poll

/-- The call of `getch` that ends the wait for a key, if it has come. -/
def Round.poll (round : Round) : Option Poll :=
  round.polls.find? fun poll => poll.key ≠ curseErr ∨ poll.interrupted = true

/-- The key of the turn. -/
def Round.key (round : Round) : Option Int := round.poll.map Poll.key

/-- How the loop takes a key that does not end it. -/
def Screen.press (s : Screen) (key : Int) : Picker :=
  if key = keyUp ∧ s.current > 0 then
    { query := s.query, current := s.current - 1, entries := s.entries }
  else if key = keyDown ∧ s.current + 1 < s.matchCount then
    { query := s.query, current := s.current + 1, entries := s.entries }
  else if (key = keyBackspace ∨ key = 127 ∨ key = 8) ∧ s.query.length > 0 then
    { query := s.query.dropLast, current := 0, entries := s.entries }
  else if key ≥ 0x20 ∧ key ≤ 0x7e ∧ s.query.length + 1 < 256 then
    { query := s.query ++ [UInt8.ofNat key.toNat], current := 0, entries := s.entries }
  else
    { query := s.query, current := s.current, entries := s.entries }

/-- Where a turn of the loop leads. -/
inductive Next : Type where
  | again (p : Picker)
  /-- no key has come yet -/
  | waiting
  /-- the loop has ended, with `*selected` -/
  | ended (status : PvStatus) (selected : RecordRef)

section Loop

variable {Hash : Type}

/-- What a key does. -/
def Screen.act (s : Screen) (capacity : Nat) (poll : Poll) : Next :=
  if poll.interrupted then .ended .errIo none
  else if poll.key = 27 then .ended .errNotFound none
  else if (poll.key = 10 ∨ poll.key = keyEnter) ∧ s.matchCount > 0 then
    if s.current ≥ capacity then .ended .errState none
    else .ended .ok (s.entries[s.current]?).join
  else .again (s.press poll.key)

/-- One turn of the loop: what it has drawn, and where it leads. -/
def turn (vault : Vault Hash) (capacity : Nat) (p : Picker) (round : Round) :
    Option Screen × Next :=
  if round.interrupted then (none, .ended .errIo none)
  else
    match redraw vault capacity round.height p with
    | .error status => (none, .ended status none)
    | .ok s =>
      match round.poll with
      | none => (some s, .waiting)
      | some poll => (some s, s.act capacity poll)

/-- The loop of `pv_ui_pick_internal`: every screen it has drawn, and where it is. -/
def pickLoop (vault : Vault Hash) (capacity : Nat) : Picker → List Round → List Screen × Next
  | p, [] => ([], .again p)
  | p, round :: rounds =>
    match turn vault capacity p round with
    | (drawn, .again p') =>
      let later := pickLoop vault capacity p' rounds
      (drawn.toList ++ later.1, later.2)
    | (drawn, next) => (drawn.toList, next)

/-- What the picker starts from. -/
def Picker.start (capacity : Nat) : Picker :=
  { query := [], current := 0, entries := List.replicate capacity none }

/-- How far the preparation of the terminal comes. -/
inductive TerminalSetup : Type where
  | noMemory
  /-- the terminal cannot be opened, or its signals cannot be guarded -/
  | noTerminal
  /-- curses cannot use it -/
  | noScreen
  | ready
  deriving DecidableEq

/-- The end of `pv_ui_pick_internal`: a guard that stays in place or a signal that was caught is an
error. -/
def leaveStatus (restored caught : Bool) (status : PvStatus) : PvStatus :=
  if restored = false then .errIo else if caught then .errIo else status

/-- `pv_ui_pick_internal`: its status and `*selected`, once it has returned. -/
def pvUiPickInternal (vault : Vault Hash) (setup : TerminalSetup) (rounds : List Round)
    (restored caught : Bool) : Option (PvStatus × RecordRef) :=
  if vault.records.length = 0 then some (.errNotFound, none)
  else
    match setup with
    | .noMemory => some (.errNomem, none)
    | .noTerminal => some (.errIo, none)
    | .noScreen => some (leaveStatus restored caught .errExternal, none)
    | .ready =>
      match (pickLoop vault vault.records.length (Picker.start vault.records.length) rounds).2 with
      | .ended status selected => some (leaveStatus restored caught status, selected)
      | _ => none

end Loop

/-! ## What is listed -/

/-- The query selects the record: it is empty, or the record has it in a text that is searched. -/
def Selects (query : Bytes) (record : Record Bytes) : Prop :=
  query = [] ∨ recordMatches record query = true

instance (query : Bytes) (record : Record Bytes) : Decidable (Selects query record) :=
  inferInstanceAs (Decidable (_ ∨ _))

theorem uiRecordMatches_iff (record : Record Bytes) (query : Bytes) :
    uiRecordMatches record query = true ↔ Selects query record := by
  rw [uiRecordMatches, Selects, ← List.length_eq_zero_iff]
  split_ifs with hempty
  · exact iff_of_true rfl (.inl hempty)
  · rw [or_iff_right hempty, recordMatches]

section Listed

variable {Hash : Type}

/-- The records of a list that the query selects, by their positions from `i` on. -/
def listed (arena : Arena) (query : Bytes) (rs : List (Record Slice)) (i : Nat) : List Nat :=
  ((rs.zipIdx i).filter fun x => x.1.Live ∧ Selects query (x.1.map arena.deref)).map Prod.snd

/-- The live records that the query selects, by their positions. -/
def Vault.matching (vault : Vault Hash) (query : Bytes) : List Nat :=
  listed vault.arena query vault.records 0

theorem listed_cons_pos {arena : Arena} {query : Bytes} {r : Record Slice}
    (h : r.Live ∧ Selects query (r.map arena.deref)) (rs : List (Record Slice)) (i : Nat) :
    listed arena query (r :: rs) i = i :: listed arena query rs (i + 1) := by
  rw [listed, List.zipIdx_cons, List.filter_cons_of_pos (by simpa using h)]
  rfl

theorem listed_cons_neg {arena : Arena} {query : Bytes} {r : Record Slice}
    (h : ¬(r.Live ∧ Selects query (r.map arena.deref))) (rs : List (Record Slice)) (i : Nat) :
    listed arena query (r :: rs) i = listed arena query rs (i + 1) := by
  rw [listed, List.zipIdx_cons, List.filter_cons_of_neg (by simpa using h)]
  rfl

theorem length_listed_le (arena : Arena) (query : Bytes) (rs : List (Record Slice)) (i : Nat) :
    (listed arena query rs i).length ≤ rs.length := by
  rw [listed, List.length_map]
  exact (List.length_filter_le ..).trans_eq List.length_zipIdx

theorem mem_matching {vault : Vault Hash} {query : Bytes} {i : Nat} :
    i ∈ vault.matching query ↔
      ∃ r, vault.records[i]? = some r ∧ r.Live ∧ Selects query (r.map vault.arena.deref) := by
  simp [Vault.matching, listed, List.mk_mem_zipIdx_iff_getElem?]

/-- The loop writes the positions it selects behind the ones it has, while there is room. -/
theorem buildLoop_spec (arena : Arena) (query : Bytes) (capacity : Nat)
    (rs : List (Record Slice)) (i : Nat) (entries : List RecordRef) (count : Nat)
    (hroom : count + rs.length ≤ capacity) (hsize : entries.length = capacity) :
    let found := listed arena query rs i
    let out := buildLoop arena query capacity rs i entries count
    out.2 = count + found.length ∧ out.1.length = capacity ∧
      out.1.take out.2 = entries.take count ++ found.map some := by
  induction rs generalizing i entries count with
  | nil => simp [buildLoop, listed, hsize]
  | cons r rs ih =>
    rw [List.length_cons] at hroom
    have hif : (r.Live ∧ uiRecordMatches (r.map arena.deref) query = true) ↔
        (r.Live ∧ Selects query (r.map arena.deref)) := by rw [uiRecordMatches_iff]
    rw [buildLoop]
    by_cases hselected : r.Live ∧ Selects query (r.map arena.deref)
    · obtain ⟨hcount, hlen, htake⟩ := ih (i + 1) (entries.set count (some i)) (count + 1)
        (by omega) (by rw [List.length_set, hsize])
      rw [if_pos (hif.mpr hselected), if_neg (by omega), listed_cons_pos hselected]
      refine ⟨by rw [hcount, List.length_cons]; omega, hlen, htake.trans ?_⟩
      rw [List.take_add_one, List.take_set_of_le (le_refl _), List.getElem?_set_self (by omega),
        List.map_cons, Option.toList_some, List.append_assoc, List.singleton_append]
    · rw [if_neg (mt hif.mp hselected), listed_cons_neg hselected]
      exact ih (i + 1) entries count (by omega) hsize

/-- **The array holds the matches**, as many as are counted. -/
theorem buildMatches_spec (vault : Vault Hash) (query : Bytes) {entries : List RecordRef}
    (hsize : entries.length = vault.records.length) :
    let out := buildMatches vault query entries vault.records.length
    out.2 = (vault.matching query).length ∧ out.1.length = vault.records.length ∧
      out.1.take out.2 = (vault.matching query).map some := by
  have h := buildLoop_spec vault.arena query _ vault.records 0 entries 0 (by omega) hsize
  simpa [buildMatches, Vault.matching] using h

end Listed

/-! ## What is drawn -/

theorem clampCurrent_lt {current matchCount : Nat} (h : 0 < matchCount) :
    clampCurrent current matchCount < matchCount := by
  rw [clampCurrent]
  split_ifs <;> omega

theorem firstRow_le (current visible : Nat) : firstRow current visible ≤ current := by
  rw [firstRow]
  split_ifs <;> omega

theorem lt_firstRow_add {current visible : Nat} (h : 0 < visible) :
    current < firstRow current visible + visible := by
  rw [firstRow]
  split_ifs <;> omega

section Shown

variable {Hash : Type}

/-- The loop draws the entries from `first` on, as many as fit and as there are. -/
theorem drawRows_eq (vault : Vault Hash) (entries : List RecordRef)
    {capacity first current matchCount : Nat} (h : matchCount ≤ capacity) (n i : Nat) :
    drawRows vault entries capacity first current matchCount n i =
      .ok ((List.range' i (min n (matchCount - (first + i)))).map
        (drawRow vault entries first current)) := by
  induction n generalizing i with
  | zero => simp [drawRows]
  | succ n ih =>
    rw [drawRows]
    split_ifs with hin hcap
    · omega
    · have hmin : min (n + 1) (matchCount - (first + i)) =
          min n (matchCount - (first + (i + 1))) + 1 := by omega
      rw [ih, hmin, List.range'_succ, List.map_cons]
      rfl
    · have hmin : min (n + 1) (matchCount - (first + i)) = 0 := by omega
      rw [hmin]
      rfl

/-- What a redraw shows: the matches of the query, the cursor on one of them when there are any,
and the list with the cursor's row highlighted, and no other. -/
structure Shows (vault : Vault Hash) (s : Screen) : Prop where
  counted : s.matchCount = (vault.matching s.query).length
  sized : s.entries.length = vault.records.length
  entries_eq : s.entries.take s.matchCount = (vault.matching s.query).map some
  inside : 0 < s.matchCount → s.current < s.matchCount
  rows_ne : s.rows ≠ [] ↔ 3 < s.height ∧ 0 < s.matchCount
  highlight : s.rows ≠ [] → ∃ row, s.rows.filter Row.highlighted = [row] ∧
    row.index = s.current ∧ row.record = (s.entries[s.current]?).join

theorem visibleRows_pos {height : Int} : 0 < visibleRows height ↔ 3 < height := by
  rw [visibleRows]
  split_ifs <;> omega

/-- One row of those drawn is for the cursor. -/
theorem filter_highlighted (vault : Vault Hash) (entries : List RecordRef)
    {first current n : Nat} (hfirst : first ≤ current) (hin : current < first + n) :
    ((List.range' 0 n).map (drawRow vault entries first current)).filter Row.highlighted =
      [drawRow vault entries first current (current - first)] := by
  have hpred : Row.highlighted ∘ drawRow vault entries first current =
      fun i => decide (i = current - first) := by
    funext i
    simp only [Function.comp_apply, drawRow]
    exact decide_eq_decide.mpr (by omega)
  have hone : (List.range' 0 n).count (current - first) = 1 :=
    List.count_eq_one_of_mem List.nodup_range' (List.mem_range'_1.mpr (by omega))
  rw [List.filter_map, hpred, List.filter_eq, hone]
  rfl

/-- **A redraw puts the cursor on a match and highlights it.** -/
theorem redraw_shows (vault : Vault Hash) (height : Int) {p : Picker}
    (hsize : p.entries.length = vault.records.length) :
    ∃ s, redraw vault vault.records.length height p = .ok s ∧ Shows vault s ∧
      s.query = p.query := by
  obtain ⟨hcount, hlen, htake⟩ := buildMatches_spec vault p.query hsize
  have hle : (buildMatches vault p.query p.entries vault.records.length).2 ≤
      vault.records.length := hcount.trans_le (length_listed_le ..)
  rw [redraw, drawRows_eq _ _ hle]
  generalize buildMatches vault p.query p.entries vault.records.length = found at *
  generalize hcurrent : clampCurrent p.current found.2 = current
  have hinside : 0 < found.2 → current < found.2 := hcurrent ▸ clampCurrent_lt
  have hne_iff : min (visibleRows height)
      (found.2 - (firstRow current (visibleRows height) + 0)) ≠ 0 ↔ 3 < height ∧ 0 < found.2 := by
    have := firstRow_le current (visibleRows height)
    have : 0 < visibleRows height ↔ 3 < height := visibleRows_pos
    omega
  refine ⟨_, rfl, ⟨hcount, hlen, htake, hinside, ?_, fun hne => ?_⟩, rfl⟩
  · simpa [List.range'_eq_nil_iff] using hne_iff
  · have hrows := hne_iff.mp (by simpa [List.range'_eq_nil_iff] using hne)
    have hfirst := firstRow_le current (visibleRows height)
    have hlast : current < firstRow current (visibleRows height) + visibleRows height :=
      lt_firstRow_add (visibleRows_pos.mpr hrows.1)
    have hmatch := hinside hrows.2
    refine ⟨_, filter_highlighted vault found.1 hfirst (by omega), ?_, ?_⟩
    · simp only [drawRow]
      omega
    · simp only [drawRow, Nat.add_sub_cancel' hfirst]

end Shown

/-! ## Whole runs -/

/-- What a key makes of the text typed so far. -/
def typed (query : Bytes) (key : Int) : Bytes :=
  if key = keyBackspace ∨ key = 127 ∨ key = 8 then query.dropLast
  else if 0x20 ≤ key ∧ key ≤ 0x7e ∧ query.length < 255 then query ++ [UInt8.ofNat key.toNat]
  else query

/-- The keys that edit the text are not the arrows. -/
theorem Screen.press_query (s : Screen) (key : Int) : (s.press key).query = typed s.query key := by
  unfold Screen.press typed keyUp keyDown keyBackspace
  by_cases hback : key = 263 ∨ key = 127 ∨ key = 8
  · rw [if_neg (by omega), if_neg (by omega), if_pos hback]
    by_cases htext : s.query.length > 0
    · rw [if_pos ⟨hback, htext⟩]
    · have hempty := List.length_eq_zero_iff.mp (Nat.eq_zero_of_not_pos htext)
      rw [if_neg (by omega), if_neg (by omega), hempty]
      rfl
  rw [if_neg hback]
  by_cases hprint : 0x20 ≤ key ∧ key ≤ 0x7e ∧ s.query.length < 255
  · rw [if_neg (by omega), if_neg (by omega), if_neg (by omega), if_pos (by omega), if_pos hprint]
  · rw [if_neg hprint]
    split_ifs <;> first | rfl | omega

theorem Screen.press_entries (s : Screen) (key : Int) : (s.press key).entries = s.entries := by
  unfold Screen.press
  split_ifs <;> rfl

section Runs

variable {Hash : Type}

/-- What the screens of a run show, and what it ends with: the entry under the cursor of the last
screen, for the text that the keys before have typed. -/
structure Picked (vault : Vault Hash) (query : Bytes) (rounds : List Round)
    (out : List Screen × Next) : Prop where
  shows : ∀ s ∈ out.1, Shows vault s
  selects : ∀ selected, out.2 = .ended .ok selected → ∃ s before round after,
    out.1.getLast? = some s ∧ rounds = before ++ round :: after ∧ out.1.length = before.length + 1 ∧
    s.query = (before.filterMap Round.key).foldl typed query ∧
    0 < s.matchCount ∧ selected = (s.entries[s.current]?).join
  noState : ∀ selected, out.2 ≠ .ended .errState selected

/-- What one turn can do: end with an error, wait, select the entry under the cursor, or go on. -/
theorem turn_cases (vault : Vault Hash) {p : Picker} (round : Round)
    (hsize : p.entries.length = vault.records.length) :
    (∃ status, turn vault vault.records.length p round = (none, .ended status none) ∧
      status ≠ .ok ∧ status ≠ .errState) ∨
    ∃ s, Shows vault s ∧ s.query = p.query ∧
      ((turn vault vault.records.length p round = (some s, .waiting)) ∨
      (∃ status, turn vault vault.records.length p round = (some s, .ended status none) ∧
        status ≠ .ok ∧ status ≠ .errState) ∨
      (turn vault vault.records.length p round =
        (some s, .ended .ok (s.entries[s.current]?).join) ∧ 0 < s.matchCount) ∨
      ∃ key, round.key = some key ∧
        turn vault vault.records.length p round = (some s, .again (s.press key))) := by
  rw [turn]
  split_ifs with hinterrupted
  · exact .inl ⟨_, rfl, nofun, nofun⟩
  obtain ⟨s, hs, hshows, hquery⟩ := redraw_shows vault round.height hsize
  refine .inr ⟨s, hshows, hquery, ?_⟩
  rw [hs]
  dsimp only
  rcases hpoll : round.poll with _ | poll
  · exact .inl rfl
  refine .inr ?_
  dsimp only
  rw [Screen.act]
  split_ifs with hsignal hescape henter hcapacity
  · exact .inl ⟨_, rfl, nofun, nofun⟩
  · exact .inl ⟨_, rfl, nofun, nofun⟩
  · -- the cursor is on a match, and there is an entry for each
    have := hshows.inside henter.2
    have := hshows.counted.trans_le (length_listed_le ..)
    omega
  · exact .inr (.inl ⟨rfl, henter.2⟩)
  · exact .inr (.inr ⟨poll.key, by rw [Round.key, hpoll]; rfl, rfl⟩)

/-- **Whole runs**, turn by turn. -/
theorem pickLoop_spec (vault : Vault Hash) (rounds : List Round) {p : Picker}
    (hsize : p.entries.length = vault.records.length) :
    Picked vault p.query rounds (pickLoop vault vault.records.length p rounds) := by
  induction rounds generalizing p with
  | nil => exact ⟨nofun, nofun, nofun⟩
  | cons round rounds ih =>
    rw [pickLoop]
    rcases turn_cases vault round hsize with ⟨status, hturn, hok, hstate⟩ | ⟨s, hshows, hquery, h⟩
    · rw [hturn]
      exact ⟨nofun, fun selected h => absurd (Next.ended.inj h).1 hok,
        fun selected h => hstate (Next.ended.inj h).1⟩
    have hone : ∀ s' ∈ (some s).toList, Shows vault s' := fun s' hs' => by
      rwa [List.mem_singleton.mp hs']
    rcases h with hturn | ⟨status, hturn, hok, hstate⟩ | ⟨hturn, hpos⟩ | ⟨key, hkey, hturn⟩
    · rw [hturn]
      exact ⟨hone, nofun, nofun⟩
    · rw [hturn]
      exact ⟨hone, fun selected h => absurd (Next.ended.inj h).1 hok,
        fun selected h => hstate (Next.ended.inj h).1⟩
    · rw [hturn]
      refine ⟨hone, fun selected h => ?_, nofun⟩
      refine ⟨s, [], round, rounds, rfl, rfl, rfl, hquery, hpos, ?_⟩
      exact (Next.ended.inj h).2.symm
    · rw [hturn]
      dsimp only
      have hlater := ih (p := s.press key) ((congrArg _ (s.press_entries key)).trans hshows.sized)
      refine ⟨fun s' hs' => ?_, fun selected h => ?_, hlater.noState⟩
      · exact (List.mem_append.mp hs').elim (hone s') (hlater.shows s')
      · obtain ⟨s', before, round', after, hlast, hrounds, hcount, htyped, hpos, hselected⟩ :=
          hlater.selects selected h
        refine ⟨s', round :: before, round', after, ?_, congrArg _ hrounds, ?_, ?_, hpos,
          hselected⟩
        · rw [Option.toList_some, List.singleton_append, List.getLast?_cons, hlast]
          rfl
        · rw [Option.toList_some, List.singleton_append, List.length_cons, hcount, List.length_cons]
        · rw [htyped, s.press_query, hquery, List.filterMap_cons_some hkey, List.foldl_cons]

/-- An entry that counts is a live record that the query selects. -/
theorem Shows.selected {vault : Vault Hash} {s : Screen} (h : Shows vault s)
    (hpos : 0 < s.matchCount) : ∃ i r, s.entries[s.current]? = some (some i) ∧
      vault.records[i]? = some r ∧ r.Live ∧ Selects s.query (r.map vault.arena.deref) := by
  have hin := h.inside hpos
  have hentry : s.entries[s.current]? = ((vault.matching s.query).map some)[s.current]? := by
    rw [← h.entries_eq, List.getElem?_take_of_lt hin]
  have hlt : s.current < (vault.matching s.query).length := h.counted ▸ hin
  rw [List.getElem?_map, List.getElem?_eq_getElem hlt] at hentry
  obtain ⟨r, hr, hlive, hselects⟩ := mem_matching.mp (List.getElem_mem hlt)
  exact ⟨_, r, hentry, hr, hlive, hselects⟩

theorem picked_start (vault : Vault Hash) (rounds : List Round) :
    Picked vault [] rounds (pickLoop vault vault.records.length
      (Picker.start vault.records.length) rounds) :=
  pickLoop_spec vault rounds (p := Picker.start vault.records.length) List.length_replicate

theorem leaveStatus_cases (restored caught : Bool) (status : PvStatus) :
    leaveStatus restored caught status = .errIo ∨
      leaveStatus restored caught status = status := by
  rw [leaveStatus]
  split_ifs
  · exact .inl rfl
  · exact .inl rfl
  · exact .inr rfl

/-- A status that is not one of the terminal's is the loop's own. -/
theorem pvUiPickInternal_status {vault : Vault Hash} {setup : TerminalSetup} {rounds : List Round}
    {restored caught : Bool} {status : PvStatus} {selected : RecordRef}
    (h : pvUiPickInternal vault setup rounds restored caught = some (status, selected)) :
    status ∈ [PvStatus.errNotFound, .errNomem, .errIo, .errExternal] ∨
      (pickLoop vault vault.records.length (Picker.start vault.records.length) rounds).2 =
        .ended status selected := by
  unfold pvUiPickInternal at h
  split_ifs at h
  · cases h
    exact .inl (by decide)
  cases setup with
  | noMemory | noTerminal =>
    cases h
    exact .inl (by decide)
  | noScreen =>
    cases h
    rcases leaveStatus_cases restored caught .errExternal with h | h <;>
      exact .inl (by rw [h]; decide)
  | ready =>
    dsimp only at h
    split at h
    · next status' selected' hnext =>
      cases h
      rcases leaveStatus_cases restored caught status' with h | h
      · exact .inl (by rw [h]; decide)
      · exact .inr (by rw [h, hnext])
    · cases h

/-- **The picker returns the highlighted live match**: over every run of its loop, each redraw puts
the cursor on a match when there is one, and highlights its row, and no other, when rows fit. When
the loop ends with success, the record is the one under the cursor of the last screen; it is live,
and the text that the keys have typed selects it. `PV_ERR_STATE` is never returned. -/
theorem picker_selects_highlighted_match (vault : Vault Hash) (rounds : List Round) :
    let out := pickLoop vault vault.records.length (Picker.start vault.records.length) rounds
    (∀ s ∈ out.1, (0 < s.matchCount → s.current < s.matchCount) ∧
      (s.rows ≠ [] ↔ 3 < s.height ∧ 0 < s.matchCount) ∧
      (s.rows ≠ [] → ∃ row, s.rows.filter Row.highlighted = [row] ∧ row.index = s.current ∧
        row.record = (s.entries[s.current]?).join)) ∧
    (∀ selected, out.2 = .ended .ok selected → ∃ s before round after i r,
      out.1.getLast? = some s ∧ rounds = before ++ round :: after ∧
      out.1.length = before.length + 1 ∧
      selected = some i ∧ s.entries[s.current]? = some (some i) ∧ vault.records[i]? = some r ∧
      r.Live ∧ s.query = (before.filterMap Round.key).foldl typed [] ∧
      (s.query = [] ∨ recordMatches (r.map vault.arena.deref) s.query = true)) ∧
    (∀ selected, out.2 ≠ .ended .errState selected) ∧
    ∀ setup restored caught selected,
      pvUiPickInternal vault setup rounds restored caught ≠ some (.errState, selected) ∧
      (pvUiPickInternal vault setup rounds restored caught = some (.ok, selected) →
        out.2 = .ended .ok selected) := by
  have hpicked := picked_start vault rounds
  refine ⟨fun s hs => ?_, fun selected hended => ?_, hpicked.noState, fun setup restored caught
    selected => ?_⟩
  · have hshows := hpicked.shows s hs
    exact ⟨hshows.inside, hshows.rows_ne, hshows.highlight⟩
  · obtain ⟨s, before, round, after, hlast, hrounds, hcount, htyped, hpos, rfl⟩ :=
      hpicked.selects selected hended
    obtain ⟨i, r, hentry, hr, hlive, hselects⟩ :=
      (hpicked.shows s (List.mem_of_getLast? hlast)).selected hpos
    refine ⟨s, before, round, after, i, r, hlast, hrounds, hcount, ?_, hentry, hr, hlive, htyped,
      hselects⟩
    rw [hentry]
    rfl
  · refine ⟨fun hreturned => ?_, fun hreturned => ?_⟩
    · exact (pvUiPickInternal_status hreturned).elim (by decide) (hpicked.noState selected)
    · exact (pvUiPickInternal_status hreturned).resolve_left (by decide)

end Runs

/-- A digit of the title is typed, then Enter: the deleted record is not listed. -/
def typeAndEnter : List Round := [⟨false, 10, [⟨0x31, false⟩]⟩, ⟨false, 10, [⟨10, false⟩]⟩]

theorem picker_selects_highlighted_match_lookup :
    (pickLoop lookupVault 2 (Picker.start 2) typeAndEnter).2 = .ended .ok (some 1) ∧
    ∃ s i r, (pickLoop lookupVault 2 (Picker.start 2) typeAndEnter).1.getLast? = some s ∧
      some 1 = some i ∧ lookupVault.records[i]? = some r ∧ r.Live ∧
      (s.query = [] ∨ recordMatches (r.map lookupVault.arena.deref) s.query = true) := by
  have hrun : (pickLoop lookupVault 2 (Picker.start 2) typeAndEnter).2 = .ended .ok (some 1) := rfl
  obtain ⟨s, before, round, after, i, r, hlast, -, -, hsel, -, hr, hlive, -, hmatches⟩ :=
    (picker_selects_highlighted_match lookupVault typeAndEnter).2.1 (some 1) hrun
  exact ⟨hrun, s, i, r, hlast, hsel, hr, hlive, hmatches⟩

end PVault
