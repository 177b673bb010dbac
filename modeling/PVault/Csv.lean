import Mathlib.Data.List.DropRight
import PVault.Arena

/-!
# Lists separated by commas (`src/cli.c`)

`split_csv` cuts the URLs and tags a user types at their commas. It scans the buffer once:
separators and blanks are skipped together, an item runs to the next comma and is then trimmed
from behind, and the comma becomes a zero byte. An item is a slice of the buffer.

* `csvItems` — what the list consists of, said without a scanner.
* `csvItems_scan` — one turn of the scanner takes the first item off that list.
* `split_csv_meets_reference` — the scanner returns the list, or refuses it.
-/

namespace PVault

open Binary

variable {data piece after : Bytes} {b : UInt8}

/-! ## The scanner -/

/-- A space or a tab. -/
def isBlank (b : UInt8) : Bool := b == 0x20 || b == 0x09

/-- What may stand between items. -/
def isSeparator (b : UInt8) : Bool := isBlank b || b == 0x2c

/-- The first loop of `split_csv`. -/
def skipSeparators (data : Bytes) (cursor : Nat) : Nat :=
  cursor + ((data.drop cursor).takeWhile isSeparator).length

/-- The second loop: to the next comma or the end. -/
def seekComma (data : Bytes) (cursor : Nat) : Nat :=
  cursor + ((data.drop cursor).takeWhile (· != 0x2c)).length

/-- The third loop, from behind. -/
def trimBlanks (data : Bytes) (start finish : Nat) : Nat :=
  start + ((slice data start (finish - start)).rdropWhile isBlank).length

/-- The end of a turn: a comma becomes a zero byte. -/
def endItem (data : Bytes) (comma : Nat) : Bytes × Nat :=
  if comma < data.length then (data.set comma 0, comma + 1) else (data, comma)

theorem endItem_lt {cursor comma : Nat} (h : cursor < data.length) (hle : cursor ≤ comma) :
    (endItem data comma).1.length - (endItem data comma).2 < data.length - cursor := by
  rw [endItem]
  split
  · rw [List.length_set]
    omega
  · show data.length - comma < data.length - cursor
    omega

theorem le_seekComma (data : Bytes) (cursor : Nat) : cursor ≤ seekComma data (skipSeparators data cursor) :=
  Nat.le_trans (Nat.le_add_right _ _) (Nat.le_add_right _ _)

/-- The loop of `split_csv`: the status, the items and the buffer. -/
def splitCsvLoop (maxLen : Nat) (data : Bytes) (cursor : Nat) (items : List Slice) :
    PvStatus × List Slice × Bytes :=
  if h : cursor < data.length then
    let start := skipSeparators data cursor
    let comma := seekComma data start
    let finish := trimBlanks data start comma
    if finish > start ∧ (items.length ≥ pvMaxCollectionItems ∨ finish - start > maxLen) then
      (.errLimit, items, data)
    else
      splitCsvLoop maxLen (endItem data comma).1 (endItem data comma).2
        (if finish > start then items ++ [⟨start, finish - start⟩] else items)
  else
    (.ok, items, data)
termination_by data.length - cursor
decreasing_by exact endItem_lt h (le_seekComma data cursor)

/-- `split_csv`. -/
def splitCsv (source : Bytes) (maxLen : Nat) : PvStatus × List Slice × Bytes :=
  if source.length = 0 then (.ok, [], source) else splitCsvLoop maxLen source 0 []

/-! ## What the list consists of -/

/-- A piece without the blanks at both ends. -/
def trimPiece (piece : Bytes) : Bytes := (piece.dropWhile isBlank).rdropWhile isBlank

/-- **The items of a list**: cut it at the commas, trim the pieces, drop the empty ones. -/
def csvItems (s : Bytes) : List Bytes := ((s.splitOn 0x2c).map trimPiece).filter (· ≠ [])

example : csvItems [0x61, 0x2c, 0x20, 0x2c, 0x09, 0x62, 0x20] = [[0x61], [0x62]] := by decide

theorem trimPiece_cons (hb : isBlank b = true) (piece : Bytes) :
    trimPiece (b :: piece) = trimPiece piece := by
  rw [trimPiece, List.dropWhile_cons_of_pos hb, trimPiece]

/-- A comma at the start stands before an empty piece. -/
theorem csvItems_comma (s : Bytes) : csvItems (0x2c :: s) = csvItems s := by
  rw [csvItems, List.splitOn_cons_eq_if_modifyHead, if_pos (by decide), List.map_cons,
    List.filter_cons_of_neg (by decide), csvItems]

/-- A blank at the start is trimmed. -/
theorem csvItems_blank (hb : isBlank b = true) (s : Bytes) :
    csvItems (b :: s) = csvItems s := by
  have hne : ¬(b == 0x2c) = true := by
    intro heq
    rw [eq_of_beq heq] at hb
    cases hb
  obtain ⟨piece, pieces, hsplit⟩ := List.exists_cons_of_ne_nil (show s.splitOn 0x2c ≠ [] by simp)
  rw [csvItems, List.splitOn_cons_eq_if_modifyHead, if_neg hne, csvItems, hsplit,
    List.modifyHead_cons, List.map_cons, List.map_cons, trimPiece_cons hb]

theorem csvItems_separators {seps : Bytes} (h : ∀ b ∈ seps, isSeparator b = true) (s : Bytes) :
    csvItems (seps ++ s) = csvItems s := by
  induction seps with
  | nil => rfl
  | cons b seps ih =>
    obtain ⟨hb, hseps⟩ := List.forall_mem_cons.mp h
    rw [List.cons_append, ← ih hseps]
    rcases Bool.or_eq_true_iff.mp hb with hblank | hcomma
    · exact csvItems_blank hblank _
    · rw [eq_of_beq hcomma]
      exact csvItems_comma _

/-- The first piece of a list is what stands before its first comma. -/
theorem csvItems_piece {rest : Bytes} (hpiece : (0x2c : UInt8) ∉ piece)
    (hrest : rest = [] ∨ ∃ t, rest = 0x2c :: t) :
    csvItems (piece ++ rest) = [trimPiece piece].filter (· ≠ []) ++ csvItems rest.tail := by
  rcases hrest with rfl | ⟨t, rfl⟩
  · rw [List.append_nil, csvItems, List.splitOn_eq_singleton hpiece]
    exact (List.append_nil _).symm
  · rw [csvItems, List.splitOn_append_cons_self, List.splitOn_eq_singleton hpiece, List.map_append,
      List.filter_append]
    rfl

/-! ## One turn of the scanner -/

/-- What a turn of the scanner sees of the rest of the buffer: separators, a piece, and a comma if
there is one. -/
structure Scanned (rest seps piece after : Bytes) : Prop where
  rest_eq : rest = seps ++ (piece ++ after)
  seps_all : ∀ b ∈ seps, isSeparator b = true
  head_piece : ∀ b, piece.head? = some b → isBlank b = false
  piece_comma : (0x2c : UInt8) ∉ piece
  after_cases : after = [] ∨ ∃ t, after = 0x2c :: t

theorem head_dropWhile {p : UInt8 → Bool} {l : Bytes} {t : Bytes} (h : l.dropWhile p = b :: t) :
    p b = false := by
  have hne : l.dropWhile p ≠ [] := by
    rw [h]
    exact List.cons_ne_nil _ _
  have hhead := List.head_dropWhile_not p hne
  simp only [h, List.head_cons] at hhead
  exact hhead

theorem scanned (rest : Bytes) : Scanned rest (rest.takeWhile isSeparator)
    ((rest.dropWhile isSeparator).takeWhile (· != 0x2c))
    ((rest.dropWhile isSeparator).dropWhile (· != 0x2c)) where
  rest_eq := by rw [List.takeWhile_append_dropWhile, List.takeWhile_append_dropWhile]
  seps_all b hb := List.mem_takeWhile_imp hb
  head_piece b hb := by
    cases hdrop : rest.dropWhile isSeparator with
    | nil =>
      rw [hdrop] at hb
      cases hb
    | cons c t =>
      have hc := head_dropWhile hdrop
      rw [hdrop, List.takeWhile_cons] at hb
      split at hb
      · cases hb
        exact (Bool.or_eq_false_iff.mp hc).1
      · cases hb
  piece_comma hmem := by
    have hne := List.mem_takeWhile_imp hmem
    cases hne
  after_cases := by
    cases hdrop : (rest.dropWhile isSeparator).dropWhile (· != 0x2c) with
    | nil => exact .inl rfl
    | cons c t =>
      have hc := head_dropWhile hdrop
      rw [bne_eq_false_iff_eq] at hc
      exact .inr ⟨t, by rw [hc]⟩

/-- **One turn takes one item off the list.** -/
theorem csvItems_scan {rest seps : Bytes} (h : Scanned rest seps piece after) :
    csvItems rest = [piece.rdropWhile isBlank].filter (· ≠ []) ++ csvItems after.tail := by
  have htrim : trimPiece piece = piece.rdropWhile isBlank := by
    rw [trimPiece]
    cases piece with
    | nil => rfl
    | cons b piece => rw [List.dropWhile_cons_of_neg (by rw [h.head_piece b rfl]; exact nofun)]
  rw [h.rest_eq, csvItems_separators h.seps_all, csvItems_piece h.piece_comma h.after_cases, htrim]

/-- **Where a turn of the scanner stops**: after the separators, at the comma, behind the item. -/
theorem scan_positions (data : Bytes) (cursor : Nat) : ∃ seps piece after,
    Scanned (data.drop cursor) seps piece after ∧
    skipSeparators data cursor = cursor + seps.length ∧
    seekComma data (cursor + seps.length) = cursor + seps.length + piece.length ∧
    data.drop (cursor + seps.length) = piece ++ after := by
  have hscan := scanned (data.drop cursor)
  have hrest : data.drop (cursor + ((data.drop cursor).takeWhile isSeparator).length) =
      (data.drop cursor).dropWhile isSeparator := by
    have hsplit : data.drop cursor = (data.drop cursor).takeWhile isSeparator ++
        (data.drop cursor).dropWhile isSeparator := List.takeWhile_append_dropWhile.symm
    rw [← List.drop_drop]
    nth_rewrite 2 [hsplit]
    exact List.drop_left
  refine ⟨_, _, _, hscan, rfl, ?_, ?_⟩
  · rw [seekComma, hrest]
  · rw [hrest, List.takeWhile_append_dropWhile]

theorem trimBlanks_eq {start : Nat} (h : data.drop start = piece ++ after) :
    trimBlanks data start (start + piece.length) = start + (piece.rdropWhile isBlank).length := by
  rw [trimBlanks, Nat.add_sub_cancel_left, slice, h, List.take_left]

/-- The next turn starts behind the comma; what lies before it is not touched. -/
theorem endItem_eq {comma : Nat} (h : data.drop comma = after) :
    (endItem data comma).1.drop (endItem data comma).2 = after.tail ∧
      (endItem data comma).1.take comma = data.take comma ∧ comma ≤ (endItem data comma).2 := by
  rw [endItem]
  split
  · refine ⟨?_, List.take_set_of_le (Nat.le_refl _), Nat.le_succ _⟩
    rw [← h, List.tail_drop]
    exact List.drop_set_of_lt (Nat.lt_succ_self _)
  · next hend =>
    refine ⟨?_, rfl, Nat.le_refl _⟩
    have hnil : data.drop comma = [] := List.drop_eq_nil_of_le (Nat.not_lt.mp hend)
    rw [← h, hnil]
    rfl

/-! ## The whole scan -/

/-- A slice of the part two buffers have in common. -/
theorem slice_of_take_eq {a b : Bytes} {n off len : Nat} (h : a.take n = b.take n)
    (hle : off + len ≤ n) : slice a off len = slice b off len := by
  have hcut : ∀ bs : Bytes, slice bs off len = slice (bs.take n) off len := fun bs => by
    rw [slice, slice, List.drop_take, List.take_take, Nat.min_eq_left (by omega)]
  rw [hcut a, hcut b, h]

/-- **One turn of the loop**: it takes the item at `start` off the list and goes on at `cursor'`.
Whatever leaves the buffer before `cursor'` alone, leaves the item and all before it alone. -/
structure Turn (data : Bytes) (cursor start : Nat) (item data' : Bytes) (cursor' : Nat) : Prop where
  list_eq : csvItems (data.drop cursor) = [item].filter (· ≠ []) ++ csvItems (data'.drop cursor')
  shorter : data'.length - cursor' < data.length - cursor
  keeps : ∀ buf : Bytes, buf.take cursor' = data'.take cursor' →
    buf.take cursor = data.take cursor ∧ slice buf start item.length = item

theorem splitCsvLoop_turn (maxLen : Nat) {cursor : Nat} (hlt : cursor < data.length) :
    ∃ start item data' cursor', Turn data cursor start item data' cursor' ∧
      ∀ items, splitCsvLoop maxLen data cursor items =
        if item ≠ [] ∧ (items.length ≥ pvMaxCollectionItems ∨ item.length > maxLen) then
          (.errLimit, items, data)
        else
          splitCsvLoop maxLen data' cursor'
            (if item ≠ [] then items ++ [⟨start, item.length⟩] else items) := by
  obtain ⟨seps, piece, after, hscan, hstart, hcomma, hrest⟩ := scan_positions data cursor
  have hlist := csvItems_scan hscan
  have hfinish := trimBlanks_eq hrest
  have hinit : piece.rdropWhile isBlank <+: piece := List.rdropWhile_prefix _ _
  generalize piece.rdropWhile isBlank = item at hlist hfinish hinit
  have hle : cursor ≤ cursor + seps.length + piece.length := by omega
  have hsome : cursor + seps.length + item.length > cursor + seps.length ↔ item ≠ [] := by
    rw [← List.length_pos_iff]
    omega
  obtain ⟨hdrop, htake, hpast⟩ := endItem_eq (show
    data.drop (cursor + seps.length + piece.length) = after by
      rw [← List.drop_drop, hrest, List.drop_left])
  refine ⟨cursor + seps.length, item, _, _, ⟨?_, endItem_lt hlt hle, fun buf hbuf => ?_⟩, fun items => ?_⟩
  · rw [hdrop]
    exact hlist
  · have hbefore : ∀ n ≤ cursor + seps.length + piece.length, buf.take n = data.take n := by
      intro n hn
      have hshort := congrArg (List.take n) hbuf
      have hsame := congrArg (List.take n) htake
      rw [List.take_take, List.take_take, Nat.min_eq_left (Nat.le_trans hn hpast)] at hshort
      rw [List.take_take, List.take_take, Nat.min_eq_left hn] at hsame
      exact hshort.trans hsame
    refine ⟨hbefore cursor hle, ?_⟩
    rw [slice_of_take_eq (hbefore _ (Nat.le_refl _)) (Nat.add_le_add_left hinit.length_le _), slice,
      hrest, List.take_append_of_le_length hinit.length_le, ← List.prefix_iff_eq_take.mp hinit]
  · rw [splitCsvLoop, dif_pos hlt]
    simp only [hstart, hcomma, hfinish, hsome, Nat.add_sub_cancel_left]

/-- The list can be stored, after `count` items that have been. -/
def CsvFits (maxLen count : Nat) (list : List Bytes) : Prop :=
  count + list.length ≤ pvMaxCollectionItems ∧ ∀ item ∈ list, item.length ≤ maxLen

theorem csvFits_cons {maxLen count : Nat} {item : Bytes} {list : List Bytes} :
    CsvFits maxLen count (item :: list) ↔ item.length ≤ maxLen ∧ CsvFits maxLen (count + 1) list := by
  rw [CsvFits, CsvFits, List.length_cons, List.forall_mem_cons, Nat.add_right_comm, Nat.add_assoc]
  exact and_left_comm

/-- What the loop has made of the rest of the list. -/
structure CsvRead (maxLen : Nat) (data : Bytes) (cursor : Nat) (items : List Slice)
    (r : PvStatus × List Slice × Bytes) : Prop where
  ok : CsvFits maxLen items.length (csvItems (data.drop cursor)) → ∃ new buf,
    r = (.ok, items ++ new, buf) ∧ buf.take cursor = data.take cursor ∧
      new.map (fun s => slice buf s.off s.len) = csvItems (data.drop cursor)
  limit : ¬CsvFits maxLen items.length (csvItems (data.drop cursor)) → r.1 = .errLimit

/-- **The loop reads the rest of the list**, by induction on what is left of the buffer. -/
theorem splitCsvLoop_spec (maxLen : Nat) : ∀ (data : Bytes) (cursor : Nat) (items : List Slice),
    items.length ≤ pvMaxCollectionItems →
    CsvRead maxLen data cursor items (splitCsvLoop maxLen data cursor items) := by
  intro data cursor items hitems
  induction hn : data.length - cursor using Nat.strong_induction_on generalizing data cursor items with
  | _ n ih =>
  subst hn
  by_cases hlt : cursor < data.length
  case neg =>
    have hnil : data.drop cursor = [] := List.drop_eq_nil_of_le (Nat.not_lt.mp hlt)
    rw [splitCsvLoop, dif_neg hlt]
    refine ⟨fun _ => ⟨[], data, by rw [List.append_nil], rfl, by rw [hnil]; rfl⟩, fun h => absurd ?_ h⟩
    rw [hnil]
    exact ⟨hitems, nofun⟩
  obtain ⟨start, item, data', cursor', hturn, hloop⟩ := splitCsvLoop_turn maxLen hlt
  have hlist := hturn.list_eq
  rw [hloop]
  by_cases hempty : item = []
  · rw [if_neg fun h => h.1 hempty, if_neg fun h => h hempty]
    rw [hempty, List.filter_cons_of_neg (by decide), List.filter_nil, List.nil_append] at hlist
    have hrest := ih _ hturn.shorter data' cursor' items hitems rfl
    refine ⟨fun hfits => ?_, hlist ▸ hrest.limit⟩
    obtain ⟨new, buf, hread, hbuf, hnew⟩ := hrest.ok (hlist ▸ hfits)
    exact ⟨new, buf, hread, (hturn.keeps buf hbuf).1, hnew.trans hlist.symm⟩
  · have hkeep : [item].filter (· ≠ []) = [item] := by simp [hempty]
    rw [hkeep, List.singleton_append] at hlist
    rw [if_pos hempty]
    by_cases hlimit : items.length ≥ pvMaxCollectionItems ∨ item.length > maxLen
    · -- the scanner refuses the item, and so does the reference
      rw [if_pos ⟨hempty, hlimit⟩]
      refine ⟨fun hfits => ?_, fun _ => rfl⟩
      rw [hlist, csvFits_cons] at hfits
      have hcount := hfits.2.1
      omega
    · rw [if_neg fun h => hlimit h.2]
      obtain ⟨hcount, hlen⟩ := not_or.mp hlimit
      have hroom : (items ++ [Slice.mk start item.length]).length = items.length + 1 := by simp
      have hrest := ih _ hturn.shorter data' cursor' (items ++ [⟨start, item.length⟩]) (by omega) rfl
      obtain ⟨hok, hbad⟩ := hrest
      rw [hroom] at hok hbad
      refine ⟨fun hfits => ?_, fun hover => hbad fun hfits => hover ?_⟩
      · rw [hlist, csvFits_cons] at hfits
        obtain ⟨new, buf, hread, hbuf, hnew⟩ := hok hfits.2
        obtain ⟨hsame, hitem⟩ := hturn.keeps buf hbuf
        refine ⟨⟨start, item.length⟩ :: new, buf, ?_, hsame, ?_⟩
        · rw [hread, List.append_assoc, List.singleton_append]
        · rw [List.map_cons, hnew, hitem, hlist]
      · rw [hlist, csvFits_cons]
        exact ⟨Nat.not_lt.mp hlen, hfits⟩

/-- **`split_csv` meets its reference definition**, for every text and every limit: it returns the
items of the list, as slices of the buffer it leaves, or refuses a list with more than 64 items or
with an item that is too long. -/
theorem split_csv_meets_reference (source : Bytes) (maxLen : Nat) :
    if (csvItems source).length ≤ 64 ∧ ∀ item ∈ csvItems source, item.length ≤ maxLen then
      (splitCsv source maxLen).1 = .ok ∧
      (splitCsv source maxLen).2.1.map (fun s => slice (splitCsv source maxLen).2.2 s.off s.len) =
        csvItems source
    else (splitCsv source maxLen).1 = .errLimit := by
  obtain ⟨hok, hlimit⟩ := splitCsvLoop_spec maxLen source 0 [] (Nat.zero_le _)
  rw [List.drop_zero, List.length_nil, CsvFits, Nat.zero_add] at hok hlimit
  have hcases : splitCsv source maxLen = splitCsvLoop maxLen source 0 [] := by
    rw [splitCsv]
    split
    · next hzero => rw [splitCsvLoop, dif_neg (by omega)]
    · rfl
  rw [hcases]
  split
  · next hfits =>
    obtain ⟨new, buf, hloop, -, hnew⟩ := hok hfits
    rw [hloop, List.nil_append]
    exact ⟨rfl, hnew⟩
  · next hbad => exact hlimit hbad

end PVault
