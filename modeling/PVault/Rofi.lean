import PVault.Recovery
import PVault.Picker

/-!
# Choosing a record through rofi (`src/cli.c`)

`rofi_select` sends a line for each live record, its title and a random token, and reads back the
line the user has chosen. The title is for the eye only; the token names the record. Whatever the
titles hold and whatever comes back, no record is selected but by its token.

The tokens that are drawn, whether each write succeeds, what the other process writes and how much
of it each read returns are parameters.

* `rofiSend_spec` — the lines and the tokens of what has been sent, by an invariant of the loop.
* `readReply_eq`, `readReply_isPrefix` — what has been read, however it was cut into reads.
* `rofiReply_line`, `rofiReply_ok` — a line that was sent is understood, and nothing but a token is.
* `rofi_protocol_unambiguous` — the three together.
-/

namespace PVault

open Binary

variable {text : Bytes} {c : UInt8}

/-! ## Sending -/

/-- The size of `rofi_entry.token`. -/
abbrev rofiTokenBytes : Nat := 8

/-- `rofi_entry`, with the record's position in the vault. -/
structure RofiEntry where
  token : Block rofiTokenBytes
  record : Nat
  deriving DecidableEq

/-- `rofi_token_unique`. -/
def rofiTokenUnique (entries : List RofiEntry) (token : Block rofiTokenBytes) : Bool :=
  entries.all fun entry => entry.token ≠ token

/-- The loop that draws a token until it is unique, with the draws to come. -/
def drawToken (entries : List RofiEntry) :
    List (Block rofiTokenBytes) → Option (Block rofiTokenBytes × List (Block rofiTokenBytes))
  | [] => none
  | token :: draws =>
    if rofiTokenUnique entries token then some (token, draws) else drawToken entries draws

/-- `suffix`: a tab, the token and a newline. -/
def rofiSuffix (token : Block rofiTokenBytes) : Bytes := 0x09 :: pvHexEncode token.bytes ++ [0x0a]

/-- The loop of `rofi_select` over the records: the lines that were sent whole, and the entries
or the error. `writes` says which calls of `fd_write_all_no_sigpipe` succeed; without a unique
token the loop goes on drawing. -/
def sendLoop (arena : Arena) (writes : Nat → Bool) :
    List (Record Slice) → Nat → List (Block rofiTokenBytes) → List RofiEntry → List Bytes →
      Option (List Bytes × Except PvStatus (List RofiEntry))
  | [], _, _, entries, lines => some (lines, .ok entries)
  | r :: rs, i, draws, entries, lines =>
    if ¬r.Live then sendLoop arena writes rs (i + 1) draws entries lines
    else
      match drawToken entries draws with
      | none => none
      | some (token, draws') =>
        match pvTextSanitize (arena.deref r.title) (List.replicate pvMaxTitle 0) pvMaxTitle with
        | none => some (lines, .error .errExternal)
        | some (safeTitle, safeTitleLen) =>
          if writes (2 * entries.length) = true ∧
              (rofiSuffix token).length < (rofiTokenBytes * 2 + 1) + 2 ∧
              writes (2 * entries.length + 1) = true then
            sendLoop arena writes rs (i + 1) draws' (entries ++ [⟨token, i⟩])
              (lines ++ [safeTitle.take safeTitleLen ++ rofiSuffix token])
          else some (lines, .error .errExternal)

/-- What `rofi_select` sends. -/
def rofiSend {Hash : Type} (vault : Vault Hash) (draws : List (Block rofiTokenBytes))
    (writes : Nat → Bool) : Option (List Bytes × Except PvStatus (List RofiEntry)) :=
  sendLoop vault.arena writes vault.records 0 draws [] []

/-! ## The reply -/

/-- `sizeof(response)`. -/
abbrev rofiResponseSize : Nat := pvMaxTitle + 64

/-- The loop that reads the reply. `reads` says how much each `read` returns of what there is, with
`none` for an error; a call that a signal interrupts is made again. A pass reads at least one byte,
so the size of the buffer is enough fuel. -/
def readReply (size : Nat) (reads : Nat → Option Nat) : Nat → Nat → Bytes → Bytes → Bytes
  | 0, _, _, response => response
  | fuel + 1, k, output, response =>
    if response.length + 1 < size then
      match reads k with
      | none => response
      | some n =>
        let got := output.take (min (max n 1) (size - response.length - 1))
        if got.length = 0 then response
        else readReply size reads fuel (k + 1) (output.drop got.length) (response ++ got)
    else response

/-- `strchr`, as a position. -/
def strchr (text : Bytes) (c : UInt8) : Option Nat := (cString text).findIdx? (· = c)

/-- `strpbrk`, as a position. -/
def strpbrk (text accept : Bytes) : Option Nat := (cString text).findIdx? (· ∈ accept)

/-- What the newline and a carriage return before it leave. -/
def stripLineEnd (response : Bytes) : Bytes :=
  let text := response.dropLast
  if text.length > 0 ∧ text.getLast? = some 0x0d then text.dropLast else text

/-- How `rofi_select` understands the reply. -/
def rofiReply (response : Bytes) (entries : List RofiEntry) : PvStatus × RecordRef :=
  if response.length > 1 ∧ response.getLast? = some 0x0a then
    let text := stripLineEnd response
    -- the tab is looked for before the line end is cut off
    match strchr response 0x09 with
    | none => (.errNotFound, none)
    | some tab =>
      let rest := text.drop (tab + 1)
      if strchr rest 0x09 = none ∧ strpbrk text [0x0d, 0x0a] = none then
        if text.length - (tab + 1) = rofiTokenBytes * 2 then
          match pvHexDecode (cString rest) rofiTokenBytes with
          | none => (.errNotFound, none)
          | some token =>
            match entries.find? fun entry => entry.token.bytes = token with
            | none => (.errNotFound, none)
            | some entry => (.ok, some entry.record)
        else (.errNotFound, none)
      else (.errNotFound, none)
  else (.errNotFound, none)

/-- `rofi_select`: its status and `*selected`, unless it goes on drawing tokens. -/
def rofiSelect {Hash : Type} (vault : Vault Hash) (allocated : Bool)
    (draws : List (Block rofiTokenBytes)) (writes : Nat → Bool) (output : Bytes)
    (reads : Nat → Option Nat) : Option (PvStatus × RecordRef) :=
  if allocated = false ∧ vault.records.length ≠ 0 then some (.errNomem, none)
  else
    match rofiSend vault draws writes with
    | none => none
    | some (_, .error status) => some (status, none)
    | some (_, .ok entries) =>
      some (rofiReply (readReply rofiResponseSize reads rofiResponseSize 0 output []) entries)

/-! ## Lines -/

/-- No control characters of ASCII but, possibly, DEL. -/
def Printable (text : Bytes) : Prop := ∀ b ∈ text, 0x20 ≤ b.toNat

theorem Printable.not_mem (h : Printable text) (hc : c.toNat < 0x20) :
    c ∉ text :=
  fun hmem => absurd (h c hmem) (by omega)

/-- The tab is the only control character of two texts and a tab between them. -/
theorem Printable.not_mem_tabbed {a b : Bytes} (ha : Printable a) (hb : Printable b)
    (hc : c.toNat < 0x20) (htab : c ≠ 0x09) : c ∉ a ++ 0x09 :: b := by
  intro hmem
  rcases List.mem_append.mp hmem with h | h
  · exact ha.not_mem hc h
  · exact (List.mem_cons.mp h).elim htab (hb.not_mem hc)

theorem printable_shown {fuel : Nat} {data : Bytes} (h : data.length ≤ fuel) :
    Printable (shown fuel data) := by
  obtain ⟨cs, htext, hsafe⟩ := exists_shown_text h
  intro b hb
  rw [htext, Utf8.text, List.mem_flatMap] at hb
  obtain ⟨c, hc, hb⟩ := hb
  have hnot := hsafe c hc
  rcases Utf8.mem_encode hb with hhigh | hsame
  · omega
  · by_contra hlow
    exact hnot (.inl (UInt32.le_iff_toNat_le.mpr (by
      rw [← hsame]
      exact Nat.le_of_lt_succ (not_le.mp hlow))))

theorem asciiFold_hexDigit : ∀ n < 16, asciiFold (hexDigit n) = hexDigit n := by decide

theorem printable_pvHexEncode (bs : Bytes) : Printable (pvHexEncode bs) := fun c hc => by
  have := le_of_mem_pvHexEncode hc
  omega

theorem asciiFold_pvHexEncode (bs : Bytes) : (pvHexEncode bs).map asciiFold = pvHexEncode bs := by
  refine (List.map_congr_left fun c hc => ?_).trans (List.map_id _)
  obtain ⟨n, hn, rfl⟩ := mem_pvHexEncode hc
  exact asciiFold_hexDigit n hn

/-! ## Reading -/

section Reads

variable {size : Nat} {reads : Nat → Option Nat}

/-- What has been read is the start of the output, whatever the reads return. -/
theorem readReply_isPrefix (fuel k : Nat) (output response : Bytes) :
    readReply size reads fuel k output response <+: response ++ output := by
  induction fuel generalizing k output response with
  | zero => exact List.prefix_append ..
  | succ fuel ih =>
    rw [readReply]
    split_ifs with hroom
    · rcases reads k with _ | n
      · exact List.prefix_append ..
      · dsimp only
        split_ifs with hgot
        · exact List.prefix_append ..
        · convert ih (k + 1) _ _ using 1
          rw [List.append_assoc, List.prefix_iff_eq_append.mp (List.take_prefix ..)]
    · exact List.prefix_append ..

/-- Without an error, an output that fits is read whole, however it is cut. -/
theorem readReply_eq (hreads : ∀ k, reads k ≠ none) {fuel : Nat} (k : Nat) {output response : Bytes}
    (hfit : response.length + output.length < size) (hfuel : output.length < fuel) :
    readReply size reads fuel k output response = response ++ output := by
  induction fuel generalizing k output response with
  | zero => omega
  | succ fuel ih =>
    obtain ⟨n, hn⟩ := Option.ne_none_iff_exists'.mp (hreads k)
    rw [readReply, hn]
    dsimp only
    split_ifs with hroom hgot
    · rw [List.length_take] at hgot
      rw [List.length_eq_zero_iff.mp (by omega : output.length = 0), List.append_nil]
    · have hcut := List.prefix_iff_eq_append.mp
        (List.take_prefix (min (max n 1) (size - response.length - 1)) output)
      have hlen := congrArg List.length hcut
      rw [List.length_append] at hlen
      rw [ih _ (by rw [List.length_append]; omega) (by omega), List.append_assoc, hcut]
    · rw [List.length_eq_zero_iff.mp (by omega : output.length = 0), List.append_nil]

end Reads

/-! ## Understanding the reply -/

/-- `strchr` finds the first place, and no NUL stands before it. -/
theorem strchr_eq_some {i : Nat} (h : strchr text c = some i) :
    text = text.take i ++ c :: text.drop (i + 1) ∧ c ∉ text.take i := by
  obtain ⟨hi, hc, hbefore⟩ := List.findIdx?_eq_some_iff_getElem.mp h
  have hlt : i < text.length := hi.trans_le (cString_isPrefix text).length_le
  have hget : text[i] = c := by
    rw [← (cString_isPrefix text).getElem hi]
    exact of_decide_eq_true hc
  refine ⟨?_, fun hmem => ?_⟩
  · rw [← hget, List.getElem_cons_drop, List.take_append_drop]
  · obtain ⟨j, hj, hjc⟩ := List.mem_take_iff_getElem.mp hmem
    have hji : j < i := hj.trans_le (min_le_left ..)
    refine hbefore j hji (decide_eq_true ?_)
    rw [(cString_isPrefix text).getElem (hji.trans hi), hjc]

theorem strchr_append {before after : Bytes} (hnul : 0 ∉ before ++ c :: after) (hc : c ∉ before) :
    strchr (before ++ c :: after) c = some before.length := by
  have hbefore : before.findIdx? (· = c) = none :=
    List.findIdx?_eq_none_iff.mpr fun _ hb => decide_eq_false fun h => hc (h ▸ hb)
  rw [strchr, cString_eq hnul, List.findIdx?_append, hbefore, List.findIdx?_cons]
  simp

theorem strchr_eq_none (h : c ∉ text) : strchr text c = none :=
  List.findIdx?_eq_none_iff.mpr fun _ hb =>
    decide_eq_false fun hbc => h (hbc ▸ (cString_isPrefix text).subset hb)

theorem strpbrk_eq_none {accept : Bytes} (h : ∀ c ∈ accept, c ∉ text) :
    strpbrk text accept = none :=
  List.findIdx?_eq_none_iff.mpr fun c hc =>
    decide_eq_false fun hmem => h c hmem ((cString_isPrefix text).subset hc)

/-- What is cut off are the newline and, possibly, a carriage return. -/
theorem stripLineEnd_cases {response : Bytes} (h : response.getLast? = some 0x0a) :
    ∃ lineEnd, response = stripLineEnd response ++ lineEnd ∧
      (lineEnd = [0x0a] ∨ lineEnd = [0x0d, 0x0a]) := by
  obtain ⟨text, rfl⟩ := List.getLast?_eq_some_iff.mp h
  rw [stripLineEnd, List.dropLast_concat]
  split_ifs with hcr
  · obtain ⟨text', rfl⟩ := List.getLast?_eq_some_iff.mp hcr.2
    exact ⟨[0x0d, 0x0a], by simp, .inr rfl⟩
  · exact ⟨[0x0a], rfl, .inl rfl⟩

/-- **Nothing but a token is understood**: when a record is selected, the token of its entry, in
digits of either case, directly follows the first tab. -/
theorem rofiReply_ok {response : Bytes} {entries : List RofiEntry} {selected : RecordRef}
    (h : rofiReply response entries = (.ok, selected)) :
    ∃ entry ∈ entries, selected = some entry.record ∧ ∃ before text after,
      response = before ++ 0x09 :: text ++ after ∧ 0x09 ∉ before ∧
      text.map asciiFold = pvHexEncode entry.token.bytes := by
  unfold rofiReply at h
  split_ifs at h with hline
  swap
  · cases h
  dsimp only at h
  rcases htab : strchr response 0x09 with _ | tab
  · rw [htab] at h
    cases h
  rw [htab] at h
  dsimp only at h
  split_ifs at h with honly hlen
  rotate_left
  · cases h
  · cases h
  split at h
  · cases h
  next token hdecode =>
  split at h
  · cases h
  next entry hfind =>
  cases h
  obtain ⟨lineEnd, hstrip, -⟩ := stripLineEnd_cases hline.2
  obtain ⟨htabAt, hbefore⟩ := strchr_eq_some htab
  obtain ⟨htoken, hfold⟩ := pvHexDecode_eq_some.mp hdecode
  generalize stripLineEnd response = text at *
  rw [show rofiTokenBytes * 2 = 16 from rfl] at hlen
  -- the sixteen bytes behind the tab hold no NUL
  have hwhole : cString (text.drop (tab + 1)) = text.drop (tab + 1) := by
    refine (cString_isPrefix _).eq_of_length ?_
    have hcount := congrArg List.length hfold
    rw [List.length_map, length_pvHexEncode, htoken] at hcount
    rw [hcount, List.length_drop, hlen]
    rfl
  have hdrop : response.drop (tab + 1) = text.drop (tab + 1) ++ lineEnd := by
    rw [← List.drop_append_of_le_length (by omega : tab + 1 ≤ text.length), ← hstrip]
  refine ⟨entry, List.mem_of_find?_eq_some hfind, rfl, response.take tab, text.drop (tab + 1),
    lineEnd, ?_, hbefore, ?_⟩
  · rw [List.append_assoc, List.cons_append, ← hdrop]
    exact htabAt
  · have hentry : entry.token.bytes = token := of_decide_eq_true (List.find?_some hfind :)
    rw [hentry, ← hfold, hwhole]

/-- Tokens that differ tell the entries apart. -/
theorem find_token {entries : List RofiEntry} (htokens : (entries.map RofiEntry.token).Nodup)
    {entry : RofiEntry} (hentry : entry ∈ entries) :
    entries.find? (fun e => e.token.bytes = entry.token.bytes) = some entry := by
  obtain ⟨found, hfound⟩ := Option.isSome_iff_exists.mp
    (List.find?_isSome.mpr ⟨entry, hentry, decide_eq_true rfl⟩ :
      (entries.find? fun e => e.token.bytes = entry.token.bytes).isSome = true)
  have hsame : found.token.bytes = entry.token.bytes := of_decide_eq_true (List.find?_some hfound :)
  have hmem := List.mem_of_find?_eq_some hfound
  rw [hfound, List.inj_on_of_nodup_map htokens hmem hentry (Block.ext hsame)]

theorem stripLineEnd_line {body lineEnd : Bytes} (hbody : 0x0d ∉ body)
    (hend : lineEnd = [0x0a] ∨ lineEnd = [0x0d, 0x0a]) : stripLineEnd (body ++ lineEnd) = body := by
  rcases hend with rfl | rfl
  · rw [stripLineEnd, List.dropLast_concat]
    exact if_neg fun h => hbody (List.mem_of_getLast? h.2)
  · have hcut : (body ++ [0x0d, 0x0a]).dropLast = body ++ [0x0d] := by
      rw [show body ++ [0x0d, 0x0a] = body ++ [0x0d] ++ [0x0a] by simp, List.dropLast_concat]
    rw [stripLineEnd, hcut, List.dropLast_concat, List.getLast?_concat]
    exact if_pos ⟨by simp, rfl⟩

/-- **A line is understood**, as it was sent and with a carriage return before the newline. -/
theorem rofiReply_line {entries : List RofiEntry} (htokens : (entries.map RofiEntry.token).Nodup)
    {entry : RofiEntry} (hentry : entry ∈ entries) {title lineEnd : Bytes} (htitle : Printable title)
    (hend : lineEnd = [0x0a] ∨ lineEnd = [0x0d, 0x0a]) :
    rofiReply (title ++ 0x09 :: pvHexEncode entry.token.bytes ++ lineEnd) entries =
      (.ok, some entry.record) := by
  have hhex := printable_pvHexEncode entry.token.bytes
  have hstrip := stripLineEnd_line
    (htitle.not_mem_tabbed hhex (c := 0x0d) (by decide) (by decide)) hend
  have hlast : (title ++ 0x09 :: pvHexEncode entry.token.bytes ++ lineEnd).length > 1 ∧
      (title ++ 0x09 :: pvHexEncode entry.token.bytes ++ lineEnd).getLast? = some 0x0a := by
    rcases hend with rfl | rfl
    · exact ⟨by simp only [List.length_append, List.length_cons]; omega, List.getLast?_concat⟩
    · refine ⟨by simp only [List.length_append, List.length_cons]; omega, ?_⟩
      rw [List.getLast?_append]
      rfl
  have htab : strchr (title ++ 0x09 :: pvHexEncode entry.token.bytes ++ lineEnd) 0x09 =
      some title.length := by
    have hnul : 0 ∉ title ++ 0x09 :: pvHexEncode entry.token.bytes ++ lineEnd := fun hmem =>
      (List.mem_append.mp hmem).elim (htitle.not_mem_tabbed hhex (by decide) (by decide))
        (by rcases hend with rfl | rfl <;> decide)
    rw [List.append_assoc, List.cons_append] at hnul ⊢
    exact strchr_append hnul (htitle.not_mem (by decide))
  have hrest : (title ++ 0x09 :: pvHexEncode entry.token.bytes).drop (title.length + 1) =
      pvHexEncode entry.token.bytes := by
    rw [← List.drop_drop, List.drop_left]
    rfl
  have hone : strchr (pvHexEncode entry.token.bytes) 0x09 = none ∧
      strpbrk (title ++ 0x09 :: pvHexEncode entry.token.bytes) [0x0d, 0x0a] = none := by
    refine ⟨strchr_eq_none (hhex.not_mem (by decide)), strpbrk_eq_none fun c hc => ?_⟩
    simp only [List.mem_cons, List.not_mem_nil, or_false] at hc
    rcases hc with rfl | rfl
    · exact htitle.not_mem_tabbed hhex (by decide) (by decide)
    · exact htitle.not_mem_tabbed hhex (by decide) (by decide)
  have hdecode : pvHexDecode (cString (pvHexEncode entry.token.bytes)) rofiTokenBytes =
      some entry.token.bytes := by
    rw [cString_eq (hhex.not_mem (by decide))]
    exact pvHexDecode_eq_some.mpr ⟨entry.token.length_eq, asciiFold_pvHexEncode _⟩
  have hlen : (title ++ 0x09 :: pvHexEncode entry.token.bytes).length - (title.length + 1) =
      rofiTokenBytes * 2 := by
    rw [← List.length_drop, hrest, length_pvHexEncode, entry.token.length_eq, Nat.mul_comm]
  rw [rofiReply, if_pos hlast]
  dsimp only
  rw [htab]
  dsimp only
  rw [hstrip, hrest, if_pos hone, if_pos hlen, hdecode]
  dsimp only
  rw [find_token htokens hentry]

/-! ## What has been sent -/

section Sent

variable {Hash : Type}
variable {entries : List RofiEntry} {vault : Vault Hash} {writes : Nat → Bool}

/-- The title of the record at a position. -/
def Vault.titleAt (vault : Vault Hash) (i : Nat) : Bytes :=
  ((vault.records[i]?).map fun r => vault.arena.deref r.title).getD []

/-- The title as it is sent. -/
def Vault.safeTitle (vault : Vault Hash) (i : Nat) : Bytes :=
  shown (vault.titleAt i).length (vault.titleAt i)

/-- The line for an entry. -/
def Vault.rofiLine (vault : Vault Hash) (entry : RofiEntry) : Bytes :=
  vault.safeTitle entry.record ++ rofiSuffix entry.token

theorem printable_safeTitle (vault : Vault Hash) (i : Nat) : Printable (vault.safeTitle i) :=
  printable_shown (le_refl _)

theorem length_rofiSuffix (token : Block rofiTokenBytes) : (rofiSuffix token).length = 18 := by
  rw [rofiSuffix, List.length_append, List.length_cons, length_pvHexEncode, token.length_eq]
  rfl

theorem drawToken_unique {token : Block rofiTokenBytes} :
    ∀ {draws rest}, drawToken entries draws = some (token, rest) →
      token ∉ entries.map RofiEntry.token := by
  intro draws
  induction draws with
  | nil => nofun
  | cons first draws ih =>
    intro rest h
    rw [drawToken] at h
    split_ifs at h with hunique
    · cases h
      intro hmem
      obtain ⟨entry, hentry, heq⟩ := List.mem_map.mp hmem
      exact of_decide_eq_true (List.all_eq_true.mp hunique entry hentry) heq
    · exact ih h

/-- The sanitiser's buffer has room for a title. -/
theorem sanitize_title {title : Bytes} {buffer : Bytes} {len : Nat}
    (h : pvTextSanitize title (List.replicate pvMaxTitle 0) pvMaxTitle = some (buffer, len)) :
    buffer.take len = shown title.length title := by
  by_cases hle : title.length ≤ pvMaxTitle
  · have hfits : title.length ≤ (List.replicate pvMaxTitle (0 : UInt8)).length := by
      rwa [List.length_replicate]
    have heq := pvTextSanitize_eq hfits
    rw [List.length_replicate, h, Option.some.injEq, Prod.mk.injEq] at heq
    rw [heq.1, heq.2]
    exact take_splice_zero ((length_shown_le (le_refl _)).trans hfits)
  · rw [pvTextSanitize, if_pos (not_le.mp hle)] at h
    cases h

/-- **What the loop has sent**: a line for each new entry, all tokens different; and an entry for
each live record once it is through. -/
theorem sendLoop_spec (rs : List (Record Slice)) :
    ∀ {i draws entries lines lines' result}, vault.records.drop i = rs →
      (entries.map RofiEntry.token).Nodup →
      sendLoop vault.arena writes rs i draws entries lines = some (lines', result) →
      ∃ sent, lines' = lines ++ sent.map vault.rofiLine ∧
        ((entries ++ sent).map RofiEntry.token).Nodup ∧
        (∀ status, result = .error status → status = .errExternal) ∧
        ∀ done, result = .ok done → done = entries ++ sent ∧
          sent.map RofiEntry.record = listed vault.arena [] rs i := by
  induction rs with
  | nil =>
    intro i draws entries lines lines' result hrs htokens h
    cases h
    refine ⟨[], by simp, by simpa using htokens, nofun, fun done hdone => ?_⟩
    cases hdone
    exact ⟨by simp, rfl⟩
  | cons r rs ih =>
    intro i draws entries lines lines' result hrs htokens h
    have hnext : vault.records.drop (i + 1) = rs := by
      rw [← List.drop_drop, hrs]
      rfl
    have hnone : ∃ sent, lines = lines ++ sent.map vault.rofiLine ∧
        ((entries ++ sent).map RofiEntry.token).Nodup ∧
        (∀ status, (.error .errExternal : Except PvStatus (List RofiEntry)) = .error status →
          status = .errExternal) ∧
        ∀ done, (.error .errExternal : Except PvStatus (List RofiEntry)) = .ok done →
          done = entries ++ sent ∧ sent.map RofiEntry.record = listed vault.arena [] (r :: rs) i :=
      ⟨[], by simp, by simpa using htokens, fun _ h => (Except.error.inj h).symm, nofun⟩
    rw [sendLoop] at h
    split_ifs at h with hlive
    swap
    · rw [listed_cons_neg fun hsel => hlive hsel.1]
      exact ih hnext htokens h
    split at h
    · cases h
    next token draws' hdraw =>
    split at h
    · cases h
      exact hnone
    next safeTitle safeTitleLen hsanitize =>
    split_ifs at h with hsent
    swap
    · cases h
      exact hnone
    have hline : safeTitle.take safeTitleLen ++ rofiSuffix token = vault.rofiLine ⟨token, i⟩ := by
      have hr : vault.records[i]? = some r := by rw [← List.head?_drop, hrs]; rfl
      rw [sanitize_title hsanitize, Vault.rofiLine, Vault.safeTitle, Vault.titleAt, hr]
      rfl
    have htokens' : ((entries ++ [(⟨token, i⟩ : RofiEntry)]).map RofiEntry.token).Nodup := by
      rw [List.map_append, List.map_singleton, ← List.concat_eq_append]
      exact htokens.concat (drawToken_unique hdraw)
    obtain ⟨sent, hlines, hnodup, hstatus, hdone⟩ := ih hnext htokens' h
    refine ⟨⟨token, i⟩ :: sent, ?_, ?_, hstatus, fun done hok => ?_⟩
    · rw [hlines, hline, List.append_assoc]
      rfl
    · rwa [List.append_assoc] at hnodup
    · obtain ⟨hall, hrecords⟩ := hdone done hok
      refine ⟨hall.trans (List.append_assoc ..), ?_⟩
      rw [listed_cons_pos ⟨hlive, .inl rfl⟩, List.map_cons, hrecords]

/-- **The loop comes through** when the titles fit, the writes succeed and the draws are new. -/
theorem sendLoop_succeeds (hwrites : ∀ k, writes k = true) (rs : List (Record Slice)) :
    ∀ {i draws entries lines}, (∀ r ∈ rs, (vault.arena.deref r.title).length ≤ pvMaxTitle) →
      draws.Nodup → (∀ token ∈ draws, token ∉ entries.map RofiEntry.token) →
      (listed vault.arena [] rs i).length ≤ draws.length →
      ∃ lines' done, sendLoop vault.arena writes rs i draws entries lines =
        some (lines', .ok done) := by
  induction rs with
  | nil => exact fun _ _ _ _ => ⟨_, _, rfl⟩
  | cons r rs ih =>
    intro i draws entries lines htitles hnodup hnew henough
    have htitles' := fun r' hr' => htitles r' (List.mem_cons_of_mem r hr')
    rw [sendLoop]
    split_ifs with hlive
    swap
    · rw [listed_cons_neg fun hsel => hlive hsel.1] at henough
      exact ih htitles' hnodup hnew henough
    rw [listed_cons_pos ⟨hlive, .inl rfl⟩, List.length_cons] at henough
    obtain ⟨token, draws, rfl⟩ := List.exists_cons_of_length_pos (by omega : 0 < draws.length)
    obtain ⟨hnotin, hnodup'⟩ := List.nodup_cons.mp hnodup
    have hunique : rofiTokenUnique entries token = true :=
      List.all_eq_true.mpr fun entry hentry => decide_eq_true fun heq =>
        hnew token (List.mem_cons_self ..) (heq ▸ List.mem_map_of_mem hentry)
    rw [drawToken, if_pos hunique]
    dsimp only
    rw [pvTextSanitize, if_neg (not_lt.mpr (htitles r (List.mem_cons_self ..)))]
    dsimp only
    rw [if_pos ⟨hwrites _, by rw [length_rofiSuffix]; decide, hwrites _⟩]
    refine ih htitles' hnodup' (fun token' htoken' hmem => ?_) (by
      rw [List.length_cons] at henough
      omega)
    rw [List.map_append, List.mem_append] at hmem
    rcases hmem with hold | hnow
    · exact hnew token' (List.mem_cons_of_mem _ htoken') hold
    · exact hnotin ((List.mem_singleton.mp hnow : token' = token) ▸ htoken')

theorem rofiLine_eq (vault : Vault Hash) (entry : RofiEntry) : vault.rofiLine entry =
    vault.safeTitle entry.record ++ 0x09 :: pvHexEncode entry.token.bytes ++ [0x0a] := by
  rw [Vault.rofiLine, rofiSuffix, List.append_assoc]

/-- A line has one tab, one newline, at its end, and no NUL. -/
theorem rofiLine_framed (vault : Vault Hash) (entry : RofiEntry) :
    (vault.rofiLine entry).count 0x09 = 1 ∧
      (∃ body, vault.rofiLine entry = body ++ [0x0a] ∧ 0x0a ∉ body) ∧ 0 ∉ vault.rofiLine entry := by
  have htitle := printable_safeTitle vault entry.record
  have hhex := printable_pvHexEncode entry.token.bytes
  rw [rofiLine_eq]
  refine ⟨?_, ⟨_, rfl, htitle.not_mem_tabbed hhex (by decide) (by decide)⟩, fun hmem => ?_⟩
  · rw [List.count_append, List.count_append, List.count_cons_self,
      List.count_eq_zero.mpr (htitle.not_mem (by decide)),
      List.count_eq_zero.mpr (hhex.not_mem (by decide))]
    rfl
  · exact (List.mem_append.mp hmem).elim
      (htitle.not_mem_tabbed hhex (by decide) (by decide)) (by decide)

/-- What `rofi_select` has sent, once it is through. -/
theorem rofiSend_spec {draws : List (Block rofiTokenBytes)} {lines : List Bytes}
    (h : rofiSend vault draws writes = some (lines, .ok entries)) :
    lines = entries.map vault.rofiLine ∧ (entries.map RofiEntry.token).Nodup ∧
      entries.map RofiEntry.record = vault.matching [] := by
  have hnil : (([] : List RofiEntry).map RofiEntry.token).Nodup := List.nodup_nil
  obtain ⟨sent, hlines, hnodup, -, hdone⟩ := sendLoop_spec vault.records rfl hnil h
  obtain ⟨rfl, hrecords⟩ := hdone entries rfl
  exact ⟨hlines, hnodup, hrecords⟩

theorem length_safeTitle_le
    (htitles : ∀ r ∈ vault.records, (vault.arena.deref r.title).length ≤ pvMaxTitle) (i : Nat) :
    (vault.safeTitle i).length ≤ pvMaxTitle := by
  refine (length_shown_le (le_refl _)).trans ?_
  rw [Vault.titleAt]
  rcases hr : vault.records[i]? with _ | r
  · exact Nat.zero_le _
  · exact htitles r (List.mem_of_getElem? hr)

/-- A line that comes back, however it is cut into reads, selects its record. -/
theorem rofiSelect_line {draws : List (Block rofiTokenBytes)} {lines : List Bytes}
    (htitles : ∀ r ∈ vault.records, (vault.arena.deref r.title).length ≤ pvMaxTitle)
    (h : rofiSend vault draws writes = some (lines, .ok entries)) {entry : RofiEntry}
    (hentry : entry ∈ entries) {reads : Nat → Option Nat} (hreads : ∀ k, reads k ≠ none)
    {lineEnd : Bytes} (hend : lineEnd = [0x0a] ∨ lineEnd = [0x0d, 0x0a]) :
    rofiSelect vault true draws writes ((vault.rofiLine entry).dropLast ++ lineEnd) reads =
      some (.ok, some entry.record) := by
  obtain ⟨-, htokens, -⟩ := rofiSend_spec h
  have hlen : (vault.safeTitle entry.record ++ 0x09 :: pvHexEncode entry.token.bytes ++
      lineEnd).length < rofiResponseSize := by
    have htitle := length_safeTitle_le htitles entry.record
    have hend_le : lineEnd.length ≤ 2 := by rcases hend with rfl | rfl <;> decide
    have hhex : (pvHexEncode entry.token.bytes).length = 16 := by
      rw [length_pvHexEncode, entry.token.length_eq]
      rfl
    rw [List.length_append, List.length_append, List.length_cons, hhex]
    have : rofiResponseSize = pvMaxTitle + 64 := rfl
    omega
  rw [rofiLine_eq, List.dropLast_concat, rofiSelect, if_neg (by simp), h]
  dsimp only
  rw [readReply_eq hreads 0 (by rwa [List.length_nil, Nat.zero_add]) hlen, List.nil_append,
    rofiReply_line htokens hentry (printable_safeTitle vault _) hend]

/-- **The rofi protocol is unambiguous**: each line has one tab, one newline, at its end, and no
NUL. With as many different tokens as there are live records and no failing write, a line is sent
for each of them, in order; the line that comes back, its newline possibly as CR LF and in reads of
any sizes, selects its record. And whatever comes back, the token of the record that is selected,
in digits of either case, directly follows the first tab. -/
theorem rofi_protocol_unambiguous (vault : Vault Hash)
    (htitles : ∀ r ∈ vault.records, 1 ≤ (vault.arena.deref r.title).length ∧
      (vault.arena.deref r.title).length ≤ pvMaxTitle)
    (draws : List (Block rofiTokenBytes)) (writes : Nat → Bool) :
    (∀ lines result, rofiSend vault draws writes = some (lines, result) → ∀ line ∈ lines,
      line.count 0x09 = 1 ∧ (∃ body, line = body ++ [0x0a] ∧ 0x0a ∉ body) ∧ 0 ∉ line) ∧
    (draws.Nodup → (vault.matching []).length ≤ draws.length → (∀ k, writes k = true) →
      ∃ lines entries, rofiSend vault draws writes = some (lines, .ok entries)) ∧
    (∀ lines entries, rofiSend vault draws writes = some (lines, .ok entries) →
      lines = entries.map vault.rofiLine ∧ entries.map RofiEntry.record = vault.matching [] ∧
      ∀ entry ∈ entries, ∀ reads, (∀ k, reads k ≠ none) →
        rofiSelect vault true draws writes (vault.rofiLine entry) reads =
          some (.ok, some entry.record) ∧
        rofiSelect vault true draws writes ((vault.rofiLine entry).dropLast ++ [0x0d, 0x0a]) reads =
          some (.ok, some entry.record)) ∧
    ∀ allocated output reads selected,
      rofiSelect vault allocated draws writes output reads = some (.ok, selected) →
      ∃ lines entries entry r, rofiSend vault draws writes = some (lines, .ok entries) ∧
        entry ∈ entries ∧ selected = some entry.record ∧
        vault.records[entry.record]? = some r ∧ r.Live ∧
        ∃ before text after, output = before ++ 0x09 :: text ++ after ∧ 0x09 ∉ before ∧
          text.map asciiFold = pvHexEncode entry.token.bytes := by
  have hfit := fun r hr => (htitles r hr).2
  have hnil : (([] : List RofiEntry).map RofiEntry.token).Nodup := List.nodup_nil
  refine ⟨fun lines result hsend line hline => ?_, fun hnodup henough hwrites => ?_,
    fun lines entries hsend => ?_, fun allocated output reads selected hselect => ?_⟩
  · obtain ⟨sent, rfl, -⟩ := sendLoop_spec vault.records rfl hnil hsend
    obtain ⟨entry, -, rfl⟩ := List.mem_map.mp hline
    exact rofiLine_framed vault entry
  · exact sendLoop_succeeds hwrites vault.records hfit hnodup (fun _ _ => List.not_mem_nil) henough
  · obtain ⟨hlines, -, hrecords⟩ := rofiSend_spec hsend
    refine ⟨hlines, hrecords, fun entry hentry reads hreads => ⟨?_, ?_⟩⟩
    · have hsame : (vault.rofiLine entry).dropLast ++ [0x0a] = vault.rofiLine entry := by
        rw [rofiLine_eq, List.dropLast_concat]
      rw [← hsame]
      exact rofiSelect_line hfit hsend hentry hreads (.inl rfl)
    · exact rofiSelect_line hfit hsend hentry hreads (.inr rfl)
  · rw [rofiSelect] at hselect
    split_ifs at hselect with hmem
    · cases hselect
    rcases hsend : rofiSend vault draws writes with _ | ⟨lines, status | entries⟩
    · rw [hsend] at hselect
      cases hselect
    · obtain ⟨-, -, -, hstatus, -⟩ := sendLoop_spec vault.records rfl hnil hsend
      rw [hsend, hstatus status rfl] at hselect
      cases hselect
    · rw [hsend] at hselect
      obtain ⟨entry, hentry, rfl, before, text, after, hresponse, hbefore, hfold⟩ :=
        rofiReply_ok (Option.some.inj hselect)
      obtain ⟨-, -, hrecords⟩ := rofiSend_spec hsend
      obtain ⟨r, hr, hlive, -⟩ := mem_matching.mp (hrecords ▸ List.mem_map_of_mem hentry)
      obtain ⟨rest, hrest⟩ : readReply rofiResponseSize reads rofiResponseSize 0 output [] <+:
        [] ++ output := readReply_isPrefix ..
      rw [hresponse, List.nil_append, List.append_assoc] at hrest
      exact ⟨lines, entries, entry, r, rfl, hentry, rfl, hr, hlive, before, text, _, hrest.symm,
        hbefore, hfold⟩

end Sent

/-- The record with a live title, under the token of zeros, chosen with CR LF. -/
theorem rofi_protocol_unambiguous_lookup :
    rofiSend lookupVault [Block.zero _] (fun _ => true) =
      some ([pvHexEncode deletedId.bytes ++ rofiSuffix (Block.zero _)], .ok [⟨Block.zero _, 1⟩]) ∧
    rofiSelect lookupVault true [Block.zero _] (fun _ => true)
      ((lookupVault.rofiLine ⟨Block.zero _, 1⟩).dropLast ++ [0x0d, 0x0a]) (fun _ => some 1) =
      some (.ok, some 1) := by
  have hsend : rofiSend lookupVault [Block.zero _] (fun _ => true) =
      some ([pvHexEncode deletedId.bytes ++ rofiSuffix (Block.zero _)],
        .ok [⟨Block.zero _, 1⟩]) := by decide +kernel
  have htitles : ∀ r ∈ lookupVault.records, 1 ≤ (lookupVault.arena.deref r.title).length ∧
      (lookupVault.arena.deref r.title).length ≤ pvMaxTitle := by decide
  obtain ⟨-, -, hsent, -⟩ :=
    rofi_protocol_unambiguous lookupVault htitles [Block.zero _] (fun _ => true)
  exact ⟨hsend, ((hsent _ _ hsend).2.2 ⟨Block.zero _, 1⟩ (List.mem_singleton.mpr rfl)
    (fun _ => some 1) nofun).2⟩

end PVault
