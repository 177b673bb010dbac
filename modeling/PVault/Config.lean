import Mathlib.Data.List.DropRight
import Mathlib.Data.List.Nodup
import PVault.Lib.Bytes
import PVault.Lib.Strtoul
import PVault.Status

/-!
# The configuration file (`src/config.c`)

`pv_config_load` starts from the defaults, reads `pvault/config` below the XDG
configuration directory and parses it line by line: blank lines and comments, or
`key = value` with one of five keys, each at most once.

* `parseConfigLine_eq` — what one line does.
* `parseConfig_ok_iff` — what a whole file does.
* `parseConfig_transactional` — all or nothing, and in any order of the lines.
* `numericSetting_iff` — which texts the numeric keys accept.
-/

namespace PVault

open Binary

/-! ## Settings -/

/-- `pv_config`; the path is the C string in its buffer. -/
structure PvConfig : Type where
  vaultPath : Bytes
  clipboardTtl : Nat
  sessionTtl : Nat
  backupRetention : Nat
  pickerRofi : Bool
  deriving DecidableEq, Repr

/-- The bytes of an ASCII text. -/
def ascii (text : List Char) : Bytes := text.map fun c => UInt8.ofNat c.toNat

/-- `PV_CONFIG_MAX_BYTES`. -/
abbrev pvConfigMaxBytes : Nat := 64 * 1024
/-- `PV_CONFIG_MAX_LINE`. -/
abbrev pvConfigMaxLine : Nat := pathMax + 128

/-- `enum pv_config_key`. -/
inductive ConfigKey : Type where
  | vaultPath
  | clipboardTtl
  | sessionTtl
  | backupRetention
  | picker
  deriving DecidableEq, Repr

/-- The bit of a key in the mask of the keys seen so far. -/
def ConfigKey.bit : ConfigKey → Nat
  | .vaultPath => 0
  | .clipboardTtl => 1
  | .sessionTtl => 2
  | .backupRetention => 3
  | .picker => 4

/-- How a key is written in the file. -/
def ConfigKey.name : ConfigKey → Bytes
  | .vaultPath => ascii ['v', 'a', 'u', 'l', 't', '_', 'p', 'a', 't', 'h']
  | .clipboardTtl => ascii ['c', 'l', 'i', 'p', 'b', 'o', 'a', 'r', 'd', '_', 't', 't', 'l', '_',
      's', 'e', 'c', 'o', 'n', 'd', 's']
  | .sessionTtl => ascii ['s', 'e', 's', 's', 'i', 'o', 'n', '_', 'i', 'd', 'l', 'e', '_', 's',
      'e', 'c', 'o', 'n', 'd', 's']
  | .backupRetention => ascii ['b', 'a', 'c', 'k', 'u', 'p', '_', 'r', 'e', 't', 'e', 'n', 't',
      'i', 'o', 'n']
  | .picker => ascii ['p', 'i', 'c', 'k', 'e', 'r']

/-! ## `parse_config_line` -/

/-- `ascii_space`. -/
def asciiSpace (character : UInt8) : Bool :=
  character == 0x20 || character == 0x09 || character == 0x0a || character == 0x0d ||
    character == 0x0c || character == 0x0b

/-- `trim`: the text without the white space around it. -/
def trim (text : Bytes) : Bytes := (text.dropWhile asciiSpace).rdropWhile asciiSpace

/-- `parse_unsigned`. -/
def parseUnsigned (value : Bytes) (min max : Nat) : Except PvStatus Nat :=
  let parsed := CLib.strtoul value
  if parsed.range = true ∨ parsed.converted = false ∨ parsed.rest ≠ [] ∨ parsed.value < min ∨
      parsed.value > max then .error .errFormat
  else .ok parsed.value

/-- `mark_key`. -/
def markKey (seen : Nat) (key : ConfigKey) : PvStatus × Nat :=
  if seen &&& 1 <<< key.bit ≠ 0 then (.errFormat, seen) else (.ok, seen ||| 1 <<< key.bit)

/-- A line with a numeric key: the key is marked, then the value parsed and stored. -/
def numericLine (config : PvConfig) (seen : Nat) (key : ConfigKey) (value : Bytes) (min max : Nat)
    (store : Nat → PvConfig) : PvStatus × PvConfig × Nat :=
  match markKey seen key with
  | (.ok, seen) =>
    match parseUnsigned value min max with
    | .ok parsed => (.ok, store parsed, seen)
    | .error status => (status, config, seen)
  | (status, seen) => (status, config, seen)

/-- `parse_config_line`: the status, and the configuration and the mask as it leaves them. -/
def parseConfigLine (config : PvConfig) (line : Bytes) (seen : Nat) : PvStatus × PvConfig × Nat :=
  let text := trim line
  if text = [] ∨ text.head? = some 0x23 then (.ok, config, seen)
  else if 0x3d ∉ text then (.errFormat, config, seen)
  else
    let value := trim ((text.dropWhile (· ≠ 0x3d)).drop 1)
    let key := trim (text.takeWhile (· ≠ 0x3d))
    if key = ConfigKey.vaultPath.name then
      let (status, seen) := markKey seen .vaultPath
      if status ≠ .ok ∨ value.head? ≠ some 0x2f ∨ value.length ≥ pathMax then
        (.errFormat, config, seen)
      else (.ok, { config with vaultPath := value }, seen)
    else if key = ConfigKey.clipboardTtl.name then
      numericLine config seen .clipboardTtl value 1 300 fun n => { config with clipboardTtl := n }
    else if key = ConfigKey.sessionTtl.name then
      numericLine config seen .sessionTtl value 30 86400 fun n => { config with sessionTtl := n }
    else if key = ConfigKey.backupRetention.name then
      numericLine config seen .backupRetention value 1 1000
        fun n => { config with backupRetention := n }
    else if key = ConfigKey.picker.name then
      match markKey seen .picker with
      | (.ok, seen) =>
        if value = ascii ['i', 'n', 't', 'e', 'r', 'n', 'a', 'l'] then
          (.ok, { config with pickerRofi := false }, seen)
        else if value = ascii ['r', 'o', 'f', 'i'] then
          (.ok, { config with pickerRofi := true }, seen)
        else (.errFormat, config, seen)
      | (status, seen) => (status, config, seen)
    else (.errFormat, config, seen)

/-! ## `parse_config` and `pv_config_load` -/

/-- The loop of `parse_config` over the lines from the cursor on. A pass consumes at least
one byte, so the length of the content is enough fuel. -/
def parseConfigLoop : Nat → PvConfig → Bytes → Nat → PvStatus × PvConfig
  | 0, config, _, _ => (.ok, config)
  | _ + 1, config, [], _ => (.ok, config)
  | fuel + 1, config, first :: rest, seen =>
    let line := (first :: rest).takeWhile (· ≠ 0x0a)
    if line.length > pvConfigMaxLine then (.errLimit, config)
    else
      match parseConfigLine config (cString line) seen with
      | (.ok, config, seen) =>
        parseConfigLoop fuel config ((first :: rest).drop (line.length + 1)) seen
      | (status, config, _) => (status, config)

/-- `parse_config`. -/
def parseConfig (config : PvConfig) (content : Bytes) : PvStatus × PvConfig :=
  parseConfigLoop content.length config content 0

/-- The environment variables that are read. -/
structure ConfigEnv : Type where
  xdgDataHome : Option Bytes
  xdgConfigHome : Option Bytes
  home : Option Bytes

/-- `xdg_path`; `below` is the directory that stands for the variable below `HOME`. -/
def xdgPath (base home : Option Bytes) (below suffix : Bytes) : Except PvStatus Bytes :=
  let fits (path : Bytes) : Except PvStatus Bytes :=
    if path.length ≥ pathMax then .error .errLimit else .ok path
  if (base.getD []).head? = some 0x2f then fits (base.getD [] ++ 0x2f :: suffix)
  else if (home.getD []).head? ≠ some 0x2f then .error .errState
  else fits (home.getD [] ++ below ++ suffix)

/-- What `pv_config_defaults` puts next to the path. -/
def shippedConfig (path : Bytes) : PvConfig :=
  { vaultPath := path, clipboardTtl := pvDefaultClipboardTtl, sessionTtl := pvDefaultSessionTtl,
    backupRetention := pvDefaultBackupRetention, pickerRofi := false }

/-- `pv_config_defaults`. -/
def pvConfigDefaults (env : ConfigEnv) : Except PvStatus PvConfig :=
  (xdgPath env.xdgDataHome env.home
    (ascii ['/', '.', 'l', 'o', 'c', 'a', 'l', '/', 's', 'h', 'a', 'r', 'e', '/'])
    (ascii ['p', 'v', 'a', 'u', 'l', 't', '/', 'v', 'a', 'u', 'l', 't', '.', 'p', 'v', 'l', 't'])).map
    shippedConfig

/-- The checks of `read_config_file` on the bytes it has read. -/
def readConfigFile (content : Bytes) : Except PvStatus Bytes :=
  if content.length > pvConfigMaxBytes then .error .errLimit
  else if 0 ∈ content then .error .errFormat
  else .ok content

/-- `pv_config_load`: the status and the caller's configuration after the call. `file` is
what opening the file at a path comes to: an error, no such file, or its bytes. -/
def pvConfigLoad (env : ConfigEnv) (file : Bytes → Except PvStatus (Option Bytes))
    (config : PvConfig) : PvStatus × PvConfig :=
  let loaded : Except PvStatus PvConfig := do
    let candidate ← pvConfigDefaults env
    let path ← xdgPath env.xdgConfigHome env.home
      (ascii ['/', '.', 'c', 'o', 'n', 'f', 'i', 'g', '/'])
      (ascii ['p', 'v', 'a', 'u', 'l', 't', '/', 'c', 'o', 'n', 'f', 'i', 'g'])
    match ← file path with
    | none => .ok candidate
    | some bytes =>
      match parseConfig candidate (← readConfigFile bytes) with
      | (.ok, candidate) => .ok candidate
      | (status, _) => .error status
  match loaded with
  | .ok candidate => (.ok, candidate)
  | .error status => (status, config)

/-! ## What a line says -/

/-- The value a key is given. -/
inductive Setting : Type where
  | vaultPath (path : Bytes)
  | clipboardTtl (seconds : Nat)
  | sessionTtl (seconds : Nat)
  | backupRetention (count : Nat)
  | picker (rofi : Bool)
  deriving DecidableEq, Repr

/-- The key a setting belongs to. -/
def Setting.key : Setting → ConfigKey
  | .vaultPath _ => .vaultPath
  | .clipboardTtl _ => .clipboardTtl
  | .sessionTtl _ => .sessionTtl
  | .backupRetention _ => .backupRetention
  | .picker _ => .picker

/-- A configuration with one setting changed. -/
def PvConfig.set (config : PvConfig) : Setting → PvConfig
  | .vaultPath path => { config with vaultPath := path }
  | .clipboardTtl seconds => { config with clipboardTtl := seconds }
  | .sessionTtl seconds => { config with sessionTtl := seconds }
  | .backupRetention count => { config with backupRetention := count }
  | .picker rofi => { config with pickerRofi := rofi }

/-- The setting of a key in a configuration. -/
def PvConfig.get (config : PvConfig) : ConfigKey → Setting
  | .vaultPath => .vaultPath config.vaultPath
  | .clipboardTtl => .clipboardTtl config.clipboardTtl
  | .sessionTtl => .sessionTtl config.sessionTtl
  | .backupRetention => .backupRetention config.backupRetention
  | .picker => .picker config.pickerRofi

/-- The setting a value text stands for, if the key accepts it. -/
def ConfigKey.read (value : Bytes) : ConfigKey → Option Setting
  | .vaultPath =>
    if value.head? = some 0x2f ∧ value.length < pathMax then some (.vaultPath value) else none
  | .clipboardTtl => (parseUnsigned value 1 300).toOption.map .clipboardTtl
  | .sessionTtl => (parseUnsigned value 30 86400).toOption.map .sessionTtl
  | .backupRetention => (parseUnsigned value 1 1000).toOption.map .backupRetention
  | .picker =>
    if value = ascii ['i', 'n', 't', 'e', 'r', 'n', 'a', 'l'] then some (.picker false)
    else if value = ascii ['r', 'o', 'f', 'i'] then some (.picker true)
    else none

/-- The three kinds of line. -/
inductive ConfigLine : Type where
  /-- blank, or a comment -/
  | ignored
  /-- a key and a value -/
  | assignment (key value : Bytes)
  /-- neither -/
  | malformed
  deriving DecidableEq

/-- What kind of line a text is. -/
def configLine (line : Bytes) : ConfigLine :=
  let text := trim line
  if text = [] ∨ text.head? = some 0x23 then .ignored
  else if 0x3d ∉ text then .malformed
  else .assignment (trim (text.takeWhile (· ≠ 0x3d))) (trim ((text.dropWhile (· ≠ 0x3d)).drop 1))

/-- `line` gives `value` to `key`. -/
def Assigns (line : Bytes) (key : ConfigKey) (value : Bytes) : Prop :=
  configLine line = .assignment key.name value

variable {value line content : Bytes} {setting : Setting} {config defaults : PvConfig}
  {all : List Setting} {min max : Nat} {key : ConfigKey}

theorem ConfigKey.read_key (h : key.read value = some setting) :
    setting.key = key := by
  cases key <;> simp only [ConfigKey.read, Option.map_eq_some_iff] at h
  case vaultPath =>
    split_ifs at h
    cases h
    rfl
  case picker =>
    split_ifs at h <;> cases h <;> rfl
  all_goals
    obtain ⟨n, -, rfl⟩ := h
    rfl

theorem ConfigKey.name_inj {other : ConfigKey} (h : key.name = other.name) : key = other := by
  revert h
  cases key <;> cases other <;> decide

@[simp] theorem PvConfig.get_set_self (config : PvConfig) (setting : Setting) :
    (config.set setting).get setting.key = setting := by
  cases setting <;> rfl

theorem PvConfig.get_set_of_ne (config : PvConfig) (h : setting.key ≠ key) :
    (config.set setting).get key = config.get key := by
  cases setting <;> cases key <;> first | rfl | exact absurd rfl h

theorem PvConfig.set_comm (config : PvConfig) {a b : Setting} (h : a.key ≠ b.key) :
    (config.set a).set b = (config.set b).set a := by
  cases a <;> cases b <;> first | rfl | exact absurd rfl h

theorem ConfigKey.bit_inj {other : ConfigKey} (h : key.bit = other.bit) : key = other := by
  revert h
  cases key <;> cases other <;> decide

theorem markKey_eq (seen : Nat) (key : ConfigKey) :
    markKey seen key = if seen.testBit key.bit then (.errFormat, seen)
      else (.ok, seen ||| 1 <<< key.bit) := by
  rw [markKey, Nat.one_shiftLeft, Nat.and_two_pow]
  cases seen.testBit key.bit <;> simp

/-- The key that is written so. -/
def ConfigKey.ofName (name : Bytes) : Option ConfigKey :=
  [ConfigKey.vaultPath, .clipboardTtl, .sessionTtl, .backupRetention, .picker].find?
    fun key => key.name = name

/-- A value is given to a key that may have been seen. -/
def assignKey (config : PvConfig) (seen : Nat) (value : Bytes) (key : ConfigKey) :
    PvStatus × PvConfig × Nat :=
  if seen.testBit key.bit then (.errFormat, config, seen)
  else
    match key.read value with
    | none => (.errFormat, config, seen ||| 1 <<< key.bit)
    | some setting => (.ok, config.set setting, seen ||| 1 <<< key.bit)

theorem numericLine_eq (config : PvConfig) (seen : Nat) (key : ConfigKey) (value : Bytes)
    (min max : Nat) (store : Nat → PvConfig) (setting : Nat → Setting)
    (hread : key.read value = (parseUnsigned value min max).toOption.map setting)
    (hstore : ∀ n, config.set (setting n) = store n) :
    numericLine config seen key value min max store = assignKey config seen value key := by
  rw [numericLine, markKey_eq, assignKey, hread]
  cases seen.testBit key.bit with
  | true => rfl
  | false =>
    simp only [Bool.false_eq_true, if_false, parseUnsigned]
    split_ifs
    · rfl
    · simp [Except.toOption, hstore]

/-- **What one line does**: nothing, one setting, or a format error. -/
theorem parseConfigLine_eq (config : PvConfig) (line : Bytes) (seen : Nat) :
    parseConfigLine config line seen =
      match configLine line with
      | .ignored => (.ok, config, seen)
      | .malformed => (.errFormat, config, seen)
      | .assignment name value =>
        match ConfigKey.ofName name with
        | none => (.errFormat, config, seen)
        | some key => assignKey config seen value key := by
  rw [parseConfigLine, configLine]
  split
  · rfl
  split
  · rfl
  dsimp only
  generalize trim ((trim line).takeWhile fun x => decide (x ≠ 0x3d)) = name
  generalize trim (((trim line).dropWhile fun x => decide (x ≠ 0x3d)).drop 1) = value
  by_cases hname : ∃ key : ConfigKey, name = key.name
  · obtain ⟨key, rfl⟩ := hname
    cases key with
    | vaultPath =>
      show (match markKey seen .vaultPath with
        | (status, seen) =>
          if status ≠ .ok ∨ value.head? ≠ some 0x2f ∨ value.length ≥ pathMax then
            (.errFormat, config, seen)
          else (.ok, { config with vaultPath := value }, seen)) =
        assignKey config seen value .vaultPath
      rw [markKey_eq, assignKey, ConfigKey.read]
      cases seen.testBit ConfigKey.vaultPath.bit with
      | true => rfl
      | false =>
        by_cases hpath : value.head? = some 0x2f ∧ value.length < pathMax
        · simp [hpath, PvConfig.set]
        · have hbad : value.head? ≠ some 0x2f ∨ value.length ≥ pathMax := by
            rwa [not_and_or, not_lt] at hpath
          simp only [if_neg hpath, Bool.false_eq_true, if_false, if_pos (Or.inr hbad)]
    | clipboardTtl => exact numericLine_eq _ _ _ _ _ _ _ _ rfl fun _ => rfl
    | sessionTtl => exact numericLine_eq _ _ _ _ _ _ _ _ rfl fun _ => rfl
    | backupRetention => exact numericLine_eq _ _ _ _ _ _ _ _ rfl fun _ => rfl
    | picker =>
      show (match markKey seen .picker with
        | (.ok, seen) =>
          if value = ascii ['i', 'n', 't', 'e', 'r', 'n', 'a', 'l'] then
            (.ok, { config with pickerRofi := false }, seen)
          else if value = ascii ['r', 'o', 'f', 'i'] then
            (.ok, { config with pickerRofi := true }, seen)
          else (.errFormat, config, seen)
        | (status, seen) => (status, config, seen)) = assignKey config seen value .picker
      rw [markKey_eq, assignKey, ConfigKey.read]
      cases seen.testBit ConfigKey.picker.bit with
      | true => rfl
      | false =>
        simp only [Bool.false_eq_true, if_false]
        split_ifs <;> rfl
  · have hne : ∀ key : ConfigKey, name ≠ key.name := fun key h => hname ⟨key, h⟩
    have hnone : ConfigKey.ofName name = none :=
      List.find?_eq_none.mpr fun key _ => by simpa using (hne key).symm
    rw [if_neg (hne _), if_neg (hne _), if_neg (hne _), if_neg (hne _), if_neg (hne _), hnone]

theorem ConfigKey.ofName_eq_some {name : Bytes} :
    ConfigKey.ofName name = some key ↔ name = key.name := by
  constructor
  · intro h
    have := List.find?_some h
    exact (of_decide_eq_true this).symm
  · rintro rfl
    cases key <;> rfl

/-- The setting a line makes; `none` if the line is rejected. -/
def lineSetting (line : Bytes) : Option (Option Setting) :=
  match configLine line with
  | .ignored => some none
  | .malformed => none
  | .assignment name value =>
    match ConfigKey.ofName name with
    | none => none
    | some key => (key.read value).map some

theorem lineSetting_eq_some :
    lineSetting line = some (some setting) ↔
      ∃ key value, Assigns line key value ∧ key.read value = some setting := by
  rw [lineSetting]
  simp only [Assigns]
  rcases hline : configLine line with _ | ⟨name, value⟩ | _
  · simp
  · dsimp only
    rcases hkey : ConfigKey.ofName name with _ | key
    · have hne : ∀ key : ConfigKey, name ≠ key.name := fun key h => by
        rw [ConfigKey.ofName_eq_some.mpr h] at hkey
        cases hkey
      simp [hne]
    · obtain rfl := ConfigKey.ofName_eq_some.mp hkey
      simp only [Option.map_eq_some_iff, Option.some.injEq, exists_eq_right,
        ConfigLine.assignment.injEq]
      constructor
      · intro h
        exact ⟨key, value, ⟨rfl, rfl⟩, h⟩
      · rintro ⟨key', value', ⟨hname, rfl⟩, h⟩
        rwa [ConfigKey.name_inj hname]
  · simp

/-- The outcome of a line, by the setting it makes. -/
theorem parseConfigLine_cases (config : PvConfig) (line : Bytes) (seen : Nat) :
    (lineSetting line = some none ∧ parseConfigLine config line seen = (.ok, config, seen)) ∨
    (∃ setting, lineSetting line = some (some setting) ∧ seen.testBit setting.key.bit = false ∧
      parseConfigLine config line seen =
        (.ok, config.set setting, seen ||| 1 <<< setting.key.bit)) ∨
    ((lineSetting line = none ∨ ∃ setting, lineSetting line = some (some setting) ∧
        seen.testBit setting.key.bit = true) ∧
      ∃ seen', parseConfigLine config line seen = (.errFormat, config, seen')) := by
  rw [parseConfigLine_eq, lineSetting]
  rcases configLine line with _ | ⟨name, value⟩ | _
  · exact .inl ⟨rfl, rfl⟩
  · dsimp only
    rcases ConfigKey.ofName name with _ | key
    · exact .inr (.inr ⟨.inl rfl, seen, rfl⟩)
    · dsimp only
      rw [assignKey]
      rcases hread : key.read value with _ | setting
      · refine .inr (.inr ⟨.inl rfl, ?_⟩)
        split_ifs
        · exact ⟨seen, rfl⟩
        · exact ⟨_, rfl⟩
      · obtain rfl := ConfigKey.read_key hread
        rcases hseen : seen.testBit setting.key.bit with _ | _
        · exact .inr (.inl ⟨setting, rfl, hseen, rfl⟩)
        · exact .inr (.inr ⟨.inr ⟨setting, rfl, hseen⟩, seen, rfl⟩)
  · exact .inr (.inr ⟨.inl rfl, seen, rfl⟩)

/-! ## What a file says -/

/-- The lines of a file: its pieces between newlines. -/
def configLines (content : Bytes) : List Bytes := content.splitOn 0x0a

/-- The lines are parsed one after the other. -/
def parseLines (config : PvConfig) (seen : Nat) : List Bytes → PvStatus × PvConfig
  | [] => (.ok, config)
  | line :: lines =>
    if line.length > pvConfigMaxLine then (.errLimit, config)
    else
      match parseConfigLine config (cString line) seen with
      | (.ok, config, seen) => parseLines config seen lines
      | (status, config, _) => (status, config)

theorem parseConfigLoop_eq {fuel : Nat} (h : content.length ≤ fuel) :
    ∀ (config : PvConfig) (seen : Nat),
      parseConfigLoop fuel config content seen = parseLines config seen (configLines content) := by
  induction fuel generalizing content with
  | zero =>
    intro config seen
    rw [List.eq_nil_of_length_eq_zero (Nat.le_zero.mp h)]
    rfl
  | succ fuel ih =>
    intro config seen
    cases content with
    | nil => rfl
    | cons first rest =>
      generalize hcontent : first :: rest = content at h
      have hloop : parseConfigLoop (fuel + 1) config content seen =
          if (content.takeWhile (· ≠ 0x0a)).length > pvConfigMaxLine then (.errLimit, config)
          else
            match parseConfigLine config (cString (content.takeWhile (· ≠ 0x0a))) seen with
            | (.ok, config, seen) => parseConfigLoop fuel config
                (content.drop ((content.takeWhile (· ≠ 0x0a)).length + 1)) seen
            | (status, config, _) => (status, config) := by
        rw [← hcontent]
        rfl
      have hpos : 0 < content.length := by simp [← hcontent]
      rw [hloop, configLines]
      obtain ⟨line, hline, ⟨hlast, hsplit⟩ | ⟨more, hmore, hsplit⟩⟩ := splitOn_cases 0x0a content
      · have hend : content.drop (line.length + 1) = [] :=
          List.drop_eq_nil_of_le (by rw [hlast]; exact Nat.le_succ _)
        rw [hline, hend, hsplit, parseLines]
        simp only [ih (show ([] : Bytes).length ≤ fuel from Nat.zero_le fuel)]
        rfl
      · have hdrop : content.drop (line.length + 1) = more := by
          rw [hmore, ← List.drop_drop, List.drop_left]
          rfl
        have hlen := congrArg List.length hmore
        rw [List.length_append, List.length_cons] at hlen
        rw [hline, hdrop, hsplit, parseLines]
        simp only [ih (show more.length ≤ fuel by omega), configLines]

/-- The settings the lines make, in their order. -/
def settings (lines : List Bytes) : List Setting :=
  lines.filterMap fun line => (lineSetting (cString line)).join

/-- A line that may stand in the file. -/
def LineOk (line : Bytes) : Prop :=
  line.length ≤ pvConfigMaxLine ∧ (lineSetting (cString line)).isSome = true

theorem testBit_mark (seen : Nat) (key other : ConfigKey) :
    (seen ||| 1 <<< key.bit).testBit other.bit = (seen.testBit other.bit || decide (key = other)) := by
  rw [Nat.testBit_or, Nat.one_shiftLeft, Nat.testBit_two_pow]
  congr 1
  exact decide_eq_decide.mpr ⟨ConfigKey.bit_inj, congrArg _⟩

/-- **What a whole file does**, line by line. -/
theorem parseLines_ok_iff (lines : List Bytes) : ∀ {config config' : PvConfig} {seen : Nat},
    parseLines config seen lines = (.ok, config') ↔ (∀ line ∈ lines, LineOk line) ∧
      ((settings lines).map Setting.key).Nodup ∧
      (∀ setting ∈ settings lines, seen.testBit setting.key.bit = false) ∧
      config' = (settings lines).foldl PvConfig.set config := by
  induction lines with
  | nil =>
    intro config config' seen
    constructor
    · rintro h
      cases h
      exact ⟨nofun, List.nodup_nil, nofun, rfl⟩
    · rintro ⟨-, -, -, rfl⟩
      rfl
  | cons line lines ih =>
    intro config config' seen
    rw [parseLines]
    by_cases hlong : line.length > pvConfigMaxLine
    · rw [if_pos hlong]
      refine iff_of_false (by simp) fun h => ?_
      exact absurd (h.1 line (by simp)).1 (not_le.mpr hlong)
    rw [if_neg hlong]
    rcases parseConfigLine_cases config (cString line) seen with
      ⟨hnone, hparse⟩ | ⟨setting, hsome, hseen, hparse⟩ | ⟨hbad, seen', hparse⟩
    · have hsettings : settings (line :: lines) = settings lines := by
        rw [settings, List.filterMap_cons, hnone]
        rfl
      have hok : LineOk line := ⟨not_lt.mp hlong, by rw [hnone]; rfl⟩
      rw [hparse, hsettings]
      dsimp only
      rw [ih]
      simp [hok]
    · have hsettings : settings (line :: lines) = setting :: settings lines := by
        rw [settings, List.filterMap_cons, hsome]
        rfl
      have hok : LineOk line := ⟨not_lt.mp hlong, by rw [hsome]; rfl⟩
      rw [hparse, hsettings]
      dsimp only
      rw [ih]
      simp only [testBit_mark, Bool.or_eq_false_iff, List.forall_mem_cons, hok, hseen, true_and,
        List.map_cons, List.nodup_cons, List.foldl_cons, decide_eq_false_iff_not, List.mem_map,
        not_exists, not_and]
      constructor
      · rintro ⟨hall, hnodup, hmarks, hconfig⟩
        exact ⟨hall, ⟨fun other hmem heq => (hmarks other hmem).2 heq.symm, hnodup⟩,
          fun other hmem => (hmarks other hmem).1, hconfig⟩
      · rintro ⟨hall, ⟨hfresh, hnodup⟩, hmarks, hconfig⟩
        exact ⟨hall, hnodup, fun other hmem =>
          ⟨hmarks other hmem, fun heq => hfresh other hmem heq.symm⟩, hconfig⟩
    · rw [hparse]
      refine iff_of_false (by simp) fun ⟨hall, _, hmarks, _⟩ => ?_
      rcases hbad with hnone | ⟨setting, hsome, hseen⟩
      · have hok := (hall line (by simp)).2
        rw [hnone] at hok
        cases hok
      · have hmem : setting ∈ settings (line :: lines) :=
          List.mem_filterMap.mpr ⟨line, by simp, by rw [hsome]; rfl⟩
        exact absurd (hmarks setting hmem) (by rw [hseen]; decide)

theorem parseConfig_ok_iff {config' : PvConfig} :
    parseConfig config content = (.ok, config') ↔ (∀ line ∈ configLines content, LineOk line) ∧
      ((settings (configLines content)).map Setting.key).Nodup ∧
      config' = (settings (configLines content)).foldl PvConfig.set config := by
  rw [parseConfig, parseConfigLoop_eq (le_refl _), parseLines_ok_iff]
  simp

/-! ## All or nothing, in any order -/

theorem get_foldl_of_not_mem (h : ∀ setting ∈ all, setting.key ≠ key) (config : PvConfig) :
    (all.foldl PvConfig.set config).get key = config.get key := by
  induction all generalizing config with
  | nil => rfl
  | cons setting all ih =>
    rw [List.foldl_cons, ih fun s hs => h s (List.mem_cons_of_mem _ hs),
      config.get_set_of_ne (h setting List.mem_cons_self)]

theorem get_foldl_of_mem (hnodup : (all.map Setting.key).Nodup) (h : setting ∈ all)
    (config : PvConfig) :
    (all.foldl PvConfig.set config).get setting.key = setting := by
  induction all generalizing config with
  | nil => cases h
  | cons first all ih =>
    rw [List.map_cons, List.nodup_cons] at hnodup
    rw [List.foldl_cons]
    rcases List.mem_cons.mp h with rfl | h
    · rw [get_foldl_of_not_mem fun s hs heq => hnodup.1 (List.mem_map.mpr ⟨s, hs, heq⟩),
        PvConfig.get_set_self]
    · exact ih hnodup.2 h _

/-- Settings of different keys may be made in any order. -/
theorem foldl_set_perm {other : List Setting} (hperm : other.Perm all)
    (hnodup : (all.map Setting.key).Nodup) (config : PvConfig) :
    other.foldl PvConfig.set config = all.foldl PvConfig.set config := by
  refine hperm.foldl_eq' (fun a ha b hb config => ?_) config
  by_cases hkey : a.key = b.key
  · rw [List.inj_on_of_nodup_map hnodup (hperm.mem_iff.mp ha) (hperm.mem_iff.mp hb) hkey]
  · exact config.set_comm hkey

/-- The configuration `config` is `defaults` overridden by what the lines say. -/
structure Overridden (lines : List Bytes) (defaults config : PvConfig) : Prop where
  /-- no key is given a value twice -/
  once : lines.Pairwise fun a b => ∀ key value value',
    Assigns a key value → ¬Assigns b key value'
  /-- a key that is given a value has it -/
  given : ∀ line ∈ lines, ∀ key value, Assigns line key value →
    key.read value = some (config.get key)
  /-- every other key has its default -/
  default : ∀ key, (∀ line ∈ lines, ∀ value, ¬Assigns line key value) →
    config.get key = defaults.get key

theorem lineSetting_of_assigns (hassigns : Assigns line key value)
    (hok : (lineSetting line).isSome = true) :
    ∃ setting, lineSetting line = some (some setting) ∧ key.read value = some setting := by
  have hline : lineSetting line = (key.read value).map some := by
    rw [lineSetting, hassigns]
    dsimp only
    rw [ConfigKey.ofName_eq_some.mpr rfl]
  rcases hread : key.read value with _ | setting
  · rw [hline, hread] at hok
    cases hok
  · exact ⟨setting, by rw [hline, hread]; rfl, rfl⟩

theorem mem_of_mem_configLines :
    ∀ {line : Bytes}, line ∈ configLines content → ∀ x ∈ line, x ∈ content := by
  induction content with
  | nil =>
    intro line hline x hx
    obtain rfl : line = [] := by simpa [configLines] using hline
    cases hx
  | cons c content ih =>
    intro line hline x hx
    rw [configLines, List.splitOn_cons_eq_if_modifyHead] at hline
    obtain ⟨head, tail, hsplit⟩ :=
      List.exists_cons_of_ne_nil (List.splitOn_ne_nil (0x0a : UInt8) content)
    rw [configLines, hsplit] at ih
    rw [hsplit, List.modifyHead_cons] at hline
    split_ifs at hline
    · rcases List.mem_cons.mp hline with rfl | hline
      · cases hx
      · exact List.mem_cons_of_mem _ (ih hline x hx)
    · rcases List.mem_cons.mp hline with rfl | hline
      · rcases List.mem_cons.mp hx with rfl | hx
        · exact List.mem_cons_self
        · exact List.mem_cons_of_mem _ (ih List.mem_cons_self x hx)
      · exact List.mem_cons_of_mem _ (ih (List.mem_cons_of_mem _ hline) x hx)

theorem cString_line (hnul : 0 ∉ content) (hline : line ∈ configLines content) :
    cString line = line :=
  cString_eq fun hmem => hnul (mem_of_mem_configLines hline 0 hmem)

theorem Overridden.of_parse (hnul : 0 ∉ content)
    (h : parseConfig defaults content = (.ok, config)) :
    Overridden (configLines content) defaults config := by
  obtain ⟨hall, hnodup, rfl⟩ := parseConfig_ok_iff.mp h
  have hsetting : ∀ line ∈ configLines content, ∀ key value, Assigns line key value →
      ∃ setting, (lineSetting (cString line)).join = some setting ∧
        key.read value = some setting := by
    intro line hline key value hassigns
    have hok := (hall line hline).2
    rw [cString_line hnul hline] at hok ⊢
    obtain ⟨setting, hsome, hread⟩ := lineSetting_of_assigns hassigns hok
    exact ⟨setting, by rw [hsome]; rfl, hread⟩
  refine ⟨?_, ?_, ?_⟩
  · have hpair := List.pairwise_filterMap.mp (List.pairwise_map.mp hnodup)
    refine hpair.imp_of_mem fun {a b} ha hb hab key value value' hassigns hassigns' => ?_
    obtain ⟨setting, hjoin, hread⟩ := hsetting a ha key value hassigns
    obtain ⟨setting', hjoin', hread'⟩ := hsetting b hb key value' hassigns'
    exact hab _ hjoin _ hjoin' ((ConfigKey.read_key hread).trans (ConfigKey.read_key hread').symm)
  · intro line hline key value hassigns
    obtain ⟨setting, hjoin, hread⟩ := hsetting line hline key value hassigns
    have hmem : setting ∈ settings (configLines content) :=
      List.mem_filterMap.mpr ⟨line, hline, hjoin⟩
    rw [hread, ← ConfigKey.read_key hread, get_foldl_of_mem hnodup hmem]
  · intro key hnone
    refine get_foldl_of_not_mem (fun setting hmem hkey => ?_) defaults
    obtain ⟨line, hline, hjoin⟩ := List.mem_filterMap.mp hmem
    rw [cString_line hnul hline, Option.join_eq_some_iff] at hjoin
    obtain ⟨key', value, hassigns, hread⟩ := lineSetting_eq_some.mp hjoin
    obtain rfl : key' = key := (ConfigKey.read_key hread).symm.trans hkey
    exact hnone line hline value hassigns

/-- **The order of the lines does not matter.** -/
theorem parseConfig_perm {permuted : Bytes}
    (hperm : (configLines permuted).Perm (configLines content))
    (h : parseConfig defaults content = (.ok, config)) :
    parseConfig defaults permuted = (.ok, config) := by
  obtain ⟨hall, hnodup, rfl⟩ := parseConfig_ok_iff.mp h
  have hsettings : (settings (configLines permuted)).Perm (settings (configLines content)) :=
    hperm.filterMap _
  exact parseConfig_ok_iff.mpr ⟨fun line hline => hall line (hperm.mem_iff.mp hline),
    (hsettings.map _).nodup_iff.mpr hnodup, (foldl_set_perm hsettings hnodup _).symm⟩

/-- A file of admissible size without NUL bytes: the load is the parse, and a rejected file
leaves the caller's configuration alone. -/
theorem pvConfigLoad_eq {env : ConfigEnv} {file : Bytes → Except PvStatus (Option Bytes)}
    {path : Bytes} (hsize : content.length ≤ pvConfigMaxBytes) (hnul : 0 ∉ content)
    (hdefaults : pvConfigDefaults env = .ok defaults)
    (hpath : xdgPath env.xdgConfigHome env.home
      (ascii ['/', '.', 'c', 'o', 'n', 'f', 'i', 'g', '/'])
      (ascii ['p', 'v', 'a', 'u', 'l', 't', '/', 'c', 'o', 'n', 'f', 'i', 'g']) = .ok path)
    (hfile : file path = .ok (some content)) :
    pvConfigLoad env file config =
      match parseConfig defaults content with
      | (.ok, candidate) => (.ok, candidate)
      | (status, _) => (status, config) := by
  have hread : readConfigFile content = .ok content := by
    rw [readConfigFile, if_neg (not_lt.mpr hsize), if_neg hnul]
  simp only [pvConfigLoad, hdefaults, hpath, hfile, hread, bind, Except.bind]
  rcases parseConfig defaults content with ⟨status, candidate⟩
  cases status <;> rfl

/-- **Configuration parsing is transactional and order-independent.** -/
theorem parseConfig_transactional {content : Bytes} (hsize : content.length ≤ pvConfigMaxBytes)
    (hnul : 0 ∉ content) :
    (∀ env file config defaults path, pvConfigDefaults env = .ok defaults →
      xdgPath env.xdgConfigHome env.home
        (ascii ['/', '.', 'c', 'o', 'n', 'f', 'i', 'g', '/'])
        (ascii ['p', 'v', 'a', 'u', 'l', 't', '/', 'c', 'o', 'n', 'f', 'i', 'g']) = .ok path →
      file path = .ok (some content) → (parseConfig defaults content).1 ≠ .ok →
      pvConfigLoad env file config = ((parseConfig defaults content).1, config)) ∧
    (∀ defaults config, parseConfig defaults content = (.ok, config) →
      Overridden (configLines content) defaults config) ∧
    ∀ permuted, (configLines permuted).Perm (configLines content) → ∀ defaults config,
      parseConfig defaults permuted = (.ok, config) ↔ parseConfig defaults content = (.ok, config) := by
  refine ⟨fun env file config defaults path hdefaults hpath hfile hrejected => ?_,
    fun defaults config h => .of_parse hnul h,
    fun permuted hperm defaults config => ⟨parseConfig_perm hperm.symm, parseConfig_perm hperm⟩⟩
  rw [pvConfigLoad_eq hsize hnul hdefaults hpath hfile]
  split
  · next candidate heq => exact absurd (by rw [heq]) hrejected
  · next status candidate hne heq => rw [heq]

/-- A comment, a setting and a setting, and the two settings the other way round. -/
theorem parseConfig_transactional_swapped :
    parseConfig (shippedConfig [0x2f]) (ascii ['#', '\n', 'p', 'i', 'c', 'k', 'e', 'r', '=', 'r',
      'o', 'f', 'i', '\r', '\n', 'v', 'a', 'u', 'l', 't', '_', 'p', 'a', 't', 'h', ' ', '=', '/',
      'v']) = (.ok, { shippedConfig [0x2f, 0x76] with pickerRofi := true }) ↔
    parseConfig (shippedConfig [0x2f]) (ascii ['v', 'a', 'u', 'l', 't', '_', 'p', 'a', 't', 'h',
      ' ', '=', '/', 'v', '\n', '#', '\n', 'p', 'i', 'c', 'k', 'e', 'r', '=', 'r', 'o', 'f', 'i',
      '\r']) = (.ok, { shippedConfig [0x2f, 0x76] with pickerRofi := true }) :=
  (parseConfig_transactional (by decide) (by decide)).2.2 _ (by decide) _ _

example : parseConfig (shippedConfig [0x2f]) (ascii ['v', 'a', 'u', 'l', 't', '_', 'p', 'a', 't',
      'h', ' ', '=', '/', 'v', '\n', '#', '\n', 'p', 'i', 'c', 'k', 'e', 'r', '=', 'r', 'o', 'f',
      'i', '\r']) = (.ok, { shippedConfig [0x2f, 0x76] with pickerRofi := true }) := by
  decide

/-! ## The numeric keys -/

/-- The numbers a numeric key accepts, from the least to the greatest. -/
def ConfigKey.range : ConfigKey → Option (Nat × Nat)
  | .clipboardTtl => some (1, 300)
  | .sessionTtl => some (30, 86400)
  | .backupRetention => some (1, 1000)
  | .vaultPath | .picker => none

/-- The number in a setting. -/
def Setting.number : Setting → Option Nat
  | .clipboardTtl n | .sessionTtl n | .backupRetention n => some n
  | .vaultPath _ | .picker _ => none

theorem parseUnsigned_ok_iff {m : Nat} :
    parseUnsigned value min max = .ok m ↔
      CLib.strtoul value = ⟨m, [], true, false⟩ ∧ min ≤ m ∧ m ≤ max := by
  rcases hparsed : CLib.strtoul value with ⟨parsed, rest, converted, range⟩
  simp only [parseUnsigned, hparsed, CLib.Conversion.mk.injEq]
  split_ifs with hbad
  · rw [false_iff]
    rintro ⟨⟨rfl, rfl, rfl, rfl⟩, hmin, hmax⟩
    simp at hbad
    omega
  · simp only [not_or, Bool.not_eq_true, not_lt, Bool.not_eq_false, not_not] at hbad
    simp [hbad]
    omega

theorem asciiSpace_eq (c : UInt8) : asciiSpace c = CLib.isSpace c := by
  have htable : ∀ n < 256, asciiSpace (UInt8.ofNat n) = CLib.isSpace (UInt8.ofNat n) := by
    decide +kernel
  have := htable c.toNat c.toNat_lt
  rwa [UInt8.ofNat_toNat] at this

theorem trim_eq_self_iff {text : Bytes} :
    trim text = text ↔ text.dropWhile asciiSpace = text ∧ text.rdropWhile asciiSpace = text := by
  constructor
  · intro h
    have hshort : (trim text).length ≤ (text.dropWhile asciiSpace).length :=
      (List.rdropWhile_prefix _ _).length_le
    have hdrop : text.dropWhile asciiSpace = text :=
      (List.dropWhile_suffix _).eq_of_length_le (by rwa [h] at hshort)
    refine ⟨hdrop, ?_⟩
    rwa [trim, hdrop] at h
  · rintro ⟨hdrop, hrdrop⟩
    rw [trim, hdrop, hrdrop]

theorem head_of_trim (h : trim value = value) :
    ∀ c ∈ value.head?, asciiSpace c = false := by
  intro c hc
  obtain ⟨rest, rfl⟩ := List.head?_eq_some_iff.mp hc
  have := List.dropWhile_eq_self_iff.mp (trim_eq_self_iff.mp h).1 (by simp)
  simpa using this

/-- What a numeric key accepts: a literal, read in the type of `strtoul`. -/
theorem parseUnsigned_literal (htrim : trim value = value) {m : Nat} :
    parseUnsigned value min max = .ok m ↔
      ∃ n : ℤ, CLib.Literal value n ∧ n.natAbs < 2 ^ 64 ∧ m = CLib.wrapped n ∧ min ≤ m ∧ m ≤ max := by
  have hspace : ∀ c ∈ value.head?, CLib.isSpace c = false := fun c hc => by
    rw [← asciiSpace_eq, head_of_trim htrim c hc]
  rw [parseUnsigned_ok_iff, CLib.strtoul_whole_iff hspace]
  constructor
  · rintro ⟨⟨n, hlit, hfits, rfl⟩, hmin, hmax⟩
    exact ⟨n, hlit, hfits, rfl, hmin, hmax⟩
  · rintro ⟨n, hlit, hfits, rfl, hmin, hmax⟩
    exact ⟨⟨n, hlit, hfits, rfl⟩, hmin, hmax⟩

theorem configLine_assignment (key : ConfigKey) (htrim : trim value = value) :
    configLine (key.name ++ 0x3d :: value) = .assignment key.name value := by
  have hname : trim key.name = key.name ∧ key.name ≠ [] ∧ key.name.head? ≠ some 0x23 ∧
      (∀ c ∈ key.name.head?, asciiSpace c = false) ∧
      ∀ c ∈ key.name, decide (c ≠ 0x3d) = true := by
    cases key <;> decide +kernel
  obtain ⟨hkey, hne, hcomment, hhead, hfree⟩ := hname
  have htext : trim (key.name ++ 0x3d :: value) = key.name ++ 0x3d :: value := by
    refine trim_eq_self_iff.mpr ⟨?_, List.rdropWhile_eq_self_iff.mpr fun hl => ?_⟩
    · obtain ⟨c, rest, hcons⟩ := List.exists_cons_of_ne_nil hne
      rw [hcons] at hhead ⊢
      exact List.dropWhile_cons_of_neg (by simp [hhead c rfl])
    · rw [List.getLast_append_of_ne_nil _ (List.cons_ne_nil _ _)]
      by_cases hvalue : value = []
      · subst hvalue
        decide
      · rw [List.getLast_cons hvalue]
        exact List.rdropWhile_eq_self_iff.mp (trim_eq_self_iff.mp htrim).2 hvalue
  have htake : (key.name ++ 0x3d :: value).takeWhile (· ≠ 0x3d) = key.name := by
    rw [List.takeWhile_append_of_pos hfree, List.takeWhile_cons_of_neg (by decide), List.append_nil]
  have hdrop : (key.name ++ 0x3d :: value).dropWhile (· ≠ 0x3d) = 0x3d :: value := by
    rw [List.dropWhile_append_of_pos hfree, List.dropWhile_cons_of_neg (by decide)]
  have hstart : ¬(key.name ++ 0x3d :: value = [] ∨
      (key.name ++ 0x3d :: value).head? = some 0x23) := by
    rintro (h | h)
    · simp at h
    · rw [List.head?_append_of_ne_nil _ hne] at h
      exact hcomment h
  simp only [configLine, htext, if_neg hstart, htake, hdrop, hkey, List.drop_one, List.tail_cons,
    htrim]
  rw [if_neg (by simp)]

/-- The key is given the value in a line of its own, before any other line with this key. -/
def givenAlone (config : PvConfig) (key : ConfigKey) (value : Bytes) (seen : Nat) :
    PvStatus × PvConfig × Nat :=
  parseConfigLine config (key.name ++ 0x3d :: value) seen

theorem givenAlone_eq (config : PvConfig) (key : ConfigKey) {seen : Nat}
    (htrim : trim value = value) (hseen : seen.testBit key.bit = false) :
    givenAlone config key value seen =
      match key.read value with
      | none => (.errFormat, config, seen ||| 1 <<< key.bit)
      | some setting => (.ok, config.set setting, seen ||| 1 <<< key.bit) := by
  rw [givenAlone, parseConfigLine_eq, configLine_assignment key htrim]
  dsimp only
  rw [ConfigKey.ofName_eq_some.mpr rfl]
  dsimp only
  rw [assignKey, hseen]
  rfl

/-- A numeric key reads its number with `parse_unsigned`. -/
theorem ConfigKey.read_number (hkey : key.range = some (min, max)) (value : Bytes) :
    ∃ setting : Nat → Setting, (∀ n, (setting n).number = some n) ∧
      key.read value = (parseUnsigned value min max).toOption.map setting := by
  cases key <;> cases hkey
  · exact ⟨.clipboardTtl, fun _ => rfl, rfl⟩
  · exact ⟨.sessionTtl, fun _ => rfl, rfl⟩
  · exact ⟨.backupRetention, fun _ => rfl, rfl⟩

/-- A numeric line is accepted when `parse_unsigned` accepts its value, and the number is
stored. -/
theorem givenAlone_number (hkey : key.range = some (min, max)) (htrim : trim value = value)
    (config : PvConfig) {seen : Nat} (hseen : seen.testBit key.bit = false) :
    ((givenAlone config key value seen).1 = .ok ↔ ∃ m, parseUnsigned value min max = .ok m) ∧
    ∀ m, parseUnsigned value min max = .ok m →
      ((givenAlone config key value seen).2.1.get key).number = some m := by
  obtain ⟨setting, hnumber, hread⟩ := ConfigKey.read_number hkey value
  rw [givenAlone_eq config key htrim hseen]
  rcases hparsed : parseUnsigned value min max with status | m
  · rw [hread, hparsed]
    simp [Except.toOption]
  · have hsetting : key.read value = some (setting m) := by rw [hread, hparsed]; rfl
    rw [hsetting]
    refine ⟨by simp, fun m' hm' => ?_⟩
    cases hm'
    rw [← ConfigKey.read_key hsetting]
    dsimp only
    rw [PvConfig.get_set_self, hnumber]

theorem Literal.unique {n n' : ℤ} (h : CLib.Literal value n) (h' : CLib.Literal value n') :
    n = n' := by
  rw [(CLib.literal_iff.mp h).2.2, (CLib.literal_iff.mp h').2.2]

/-- The three ranges are far below the modulus. -/
theorem ConfigKey.range_bounds (hkey : key.range = some (min, max)) :
    1 ≤ min ∧ max < 2 ^ 32 := by
  cases key <;> cases hkey <;> decide

/-- **Numeric settings accept only integers in range**, with one exception: a line is accepted
exactly for the literals in range, and stores their value, unless the text is a negative
literal that `strtoul` wraps around into the range. -/
theorem numericSetting_iff {key : ConfigKey} {min max : Nat} (hkey : key.range = some (min, max))
    {value : Bytes} (htrim : trim value = value) :
    (∀ config seen, seen.testBit key.bit = false →
      ((givenAlone config key value seen).1 = .ok ↔
        ∃ n : ℤ, CLib.Literal value n ∧ min ≤ n ∧ n ≤ max) ∧
      ∀ n : ℤ, CLib.Literal value n → (givenAlone config key value seen).1 = .ok →
        ∃ m : Nat, ((givenAlone config key value seen).2.1.get key).number = some m ∧ (m : ℤ) = n) ↔
    ¬∃ n : ℤ, CLib.Literal value n ∧ n < 0 ∧ min ≤ 2 ^ 64 + n ∧ 2 ^ 64 + n ≤ max := by
  obtain ⟨hmin, hmax⟩ := ConfigKey.range_bounds hkey
  constructor
  · rintro h ⟨n, hlit, hneg, hlo, hhi⟩
    obtain ⟨haccepts, -⟩ := h (shippedConfig []) 0 (Nat.zero_testBit _)
    have hparsed : parseUnsigned value min max = .ok (CLib.wrapped n) :=
      (parseUnsigned_literal htrim).mpr ⟨n, hlit, by omega, rfl, by rw [CLib.wrapped]; omega,
        by rw [CLib.wrapped]; omega⟩
    obtain ⟨n', hlit', hlo', -⟩ := haccepts.mp
      ((givenAlone_number hkey htrim _ (Nat.zero_testBit _)).1.mpr ⟨_, hparsed⟩)
    obtain rfl := Literal.unique hlit hlit'
    omega
  · intro hwrap config seen hseen
    obtain ⟨haccepts, hstores⟩ := givenAlone_number hkey htrim config hseen
    -- an accepted literal is its own value in the return type
    have hvalue : ∀ m, parseUnsigned value min max = .ok m →
        ∃ n : ℤ, CLib.Literal value n ∧ (m : ℤ) = n ∧ min ≤ m ∧ m ≤ max := by
      intro m hm
      obtain ⟨n, hlit, hfits, rfl, hlo, hhi⟩ := (parseUnsigned_literal htrim).mp hm
      refine ⟨n, hlit, ?_, hlo, hhi⟩
      have hpos : 0 ≤ n := by
        by_contra hneg
        exact hwrap ⟨n, hlit, by omega, by rw [CLib.wrapped] at hlo; omega,
          by rw [CLib.wrapped] at hhi; omega⟩
      rw [CLib.wrapped]
      omega
    refine ⟨⟨fun hok => ?_, ?_⟩, fun n hlit hok => ?_⟩
    · obtain ⟨m, hm⟩ := haccepts.mp hok
      obtain ⟨n, hlit, heq, hlo, hhi⟩ := hvalue m hm
      exact ⟨n, hlit, by omega, by omega⟩
    · rintro ⟨n, hlit, hlo, hhi⟩
      exact haccepts.mpr ⟨CLib.wrapped n, (parseUnsigned_literal htrim).mpr ⟨n, hlit, by omega, rfl,
        by rw [CLib.wrapped]; omega, by rw [CLib.wrapped]; omega⟩⟩
    · obtain ⟨m, hm⟩ := haccepts.mp hok
      obtain ⟨n', hlit', heq, -⟩ := hvalue m hm
      exact ⟨m, hstores m hm, by rw [heq, Literal.unique hlit hlit']⟩

/-- The text `42`, which meets the condition. -/
theorem numericSetting_iff_plain :
    (∀ config seen, seen.testBit ConfigKey.clipboardTtl.bit = false →
      ((givenAlone config .clipboardTtl (ascii ['4', '2']) seen).1 = .ok ↔
        ∃ n : ℤ, CLib.Literal (ascii ['4', '2']) n ∧ (1 : Nat) ≤ n ∧ n ≤ (300 : Nat)) ∧
      ∀ n : ℤ, CLib.Literal (ascii ['4', '2']) n →
        (givenAlone config .clipboardTtl (ascii ['4', '2']) seen).1 = .ok →
        ∃ m : Nat, ((givenAlone config .clipboardTtl (ascii ['4', '2']) seen).2.1.get
          .clipboardTtl).number = some m ∧ (m : ℤ) = n) ↔
    ¬∃ n : ℤ, CLib.Literal (ascii ['4', '2']) n ∧ n < 0 ∧ (1 : Nat) ≤ 2 ^ 64 + n ∧
      2 ^ 64 + n ≤ (300 : Nat) :=
  numericSetting_iff rfl (by decide)

/-- The text `-18446744073709551611`: a negative literal is accepted and 5 is stored. -/
theorem numericSetting_wraps :
    CLib.Literal (ascii ['-', '1', '8', '4', '4', '6', '7', '4', '4', '0', '7', '3', '7', '0', '9',
      '5', '5', '1', '6', '1', '1']) (-18446744073709551611) ∧
    givenAlone (shippedConfig [0x2f]) .clipboardTtl (ascii ['-', '1', '8', '4', '4', '6', '7', '4',
      '4', '0', '7', '3', '7', '0', '9', '5', '5', '1', '6', '1', '1']) 0 =
      (.ok, { shippedConfig [0x2f] with clipboardTtl := 5 }, 2) := by
  refine ⟨?_, by decide +kernel⟩
  exact .minus (by decide +kernel) (by decide +kernel)

end PVault
