import Celox.Vcd.Writer

/-! # Reading a waveform

A value change dump is read word by word: declarations up to their `$end`, time stamps, and scalar
or vector changes. A vector that is shorter than its variable is extended on the left. -/
namespace Celox.Vcd
open Celox.Text

/-- A declared variable below its scopes, the innermost first. -/
structure Var where
  scope : List (List Char)
  name : List Char
  width : Nat
  id : List Char
  deriving DecidableEq

structure Change where
  time : Nat
  id : List Char
  text : List Char
  deriving DecidableEq

inductive Mode where
  | idle
  /-- Inside a command, with the words read of it. -/
  | command (keyword : List Char) (fields : List (List Char))
  /-- Behind the digits of a vector. -/
  | vector (text : List Char)
  deriving DecidableEq

structure Decoder where
  mode : Mode
  scopes : List (List Char)
  time : Nat
  vars : List Var
  changes : List Change
  deriving DecidableEq

namespace Decoder

def start : Decoder := ⟨.idle, [], 0, [], []⟩

/-- The words that a command takes before its `$end`. -/
def arity (keyword : List Char) : Nat :=
  if keyword = "var".toList then 4 else if keyword = "scope".toList then 2 else 0

/-- Commands that enclose changes; their `$end` is read as a command of its own. -/
def enclosesChanges (keyword : List Char) : Bool :=
  keyword ∈ ["dumpvars".toList, "dumpall".toList, "dumpon".toList, "dumpoff".toList, "end".toList]

def finish (d : Decoder) (keyword : List Char) (fields : List (List Char)) : Decoder :=
  let d := { d with mode := .idle }
  match fields with
  | [_, size, id, name] =>
    { d with vars := d.vars ++ [⟨d.scopes, name, Nat.ofDigitChars 10 size 0, id⟩] }
  | [_, scope] => { d with scopes := scope :: d.scopes }
  | _ => if keyword = "upscope".toList then { d with scopes := d.scopes.tail } else d

def change (d : Decoder) (id text : List Char) : Decoder :=
  { d with mode := .idle, changes := d.changes ++ [⟨d.time, id, text⟩] }

def step (d : Decoder) (token : List Char) : Option Decoder :=
  match d.mode with
  | .command keyword fields =>
    if fields.length < arity keyword then
      some { d with mode := .command keyword (fields ++ [token]) }
    else if token = "$end".toList then some (d.finish keyword fields)
    else some d
  | .vector text => some (d.change token text)
  | .idle =>
    match token with
    | '$' :: keyword =>
      if enclosesChanges keyword then some d else some { d with mode := .command keyword [] }
    | '#' :: digits => some { d with time := Nat.ofDigitChars 10 digits 0 }
    | 'b' :: text => some { d with mode := .vector text }
    | c :: id => if c ∈ ['0', '1', 'x', 'z'] then some (d.change id [c]) else none
    | [] => none

end Decoder

def decode (text : List Char) : Option Decoder := (words text).foldlM Decoder.step .start

/-! ## Values -/

def isUnknown (c : Char) : Bool := c = 'x' || c = 'z'

def isOne (c : Char) : Bool := c = 'x' || c = '1'

/-- Extended with the leftmost digit where that is unknown, else with zeros. -/
def leftExtend (width : Nat) (text : List Char) : List Char :=
  let fill := match text.head? with
    | some 'x' => 'x'
    | some 'z' => 'z'
    | _ => '0'
  List.replicate (width - text.length) fill ++ text

def readBits (bit : Char → Bool) (text : List Char) : Nat :=
  text.foldl (fun value c => 2 * value + (bit c).toNat) 0

/-- The value and the unknown mask of the digits of a change. -/
def digitsValue (width : Nat) (text : List Char) : Nat × Nat :=
  let text := leftExtend width text
  (readBits isOne text % 2 ^ width, readBits isUnknown text % 2 ^ width)

/-- The value of a variable at a time: its last change up to then. -/
def Decoder.valueAt (d : Decoder) (id : List Char) (width time : Nat) : Option (Nat × Nat) :=
  ((d.changes.filter fun c => c.id = id ∧ c.time ≤ time).getLast?).map fun c =>
    digitsValue width c.text

/-! ## Emission -/

/-- A text that takes the decoder from `d` to `d'`, whatever follows it. -/
structure Emits (d : Decoder) (text : List Char) (d' : Decoder) : Prop where
  complete : ∀ rest, words (text ++ rest) = words text ++ words rest
  decodes : (words text).foldlM Decoder.step d = some d'

theorem Emits.nil (d : Decoder) : Emits d [] d := ⟨fun _ => rfl, rfl⟩

theorem Emits.append {d d' d'' : Decoder} {a b : List Char} (ha : Emits d a d')
    (hb : Emits d' b d'') : Emits d (a ++ b) d'' := by
  refine ⟨fun rest => ?_, ?_⟩
  · rw [List.append_assoc, ha.complete, hb.complete, ha.complete, List.append_assoc]
  · rw [ha.complete, List.foldlM_append, ha.decodes]
    exact hb.decodes

theorem Emits.line {d d' : Decoder} {tokens : List (List Char)}
    (hplain : ∀ token ∈ tokens, Plain token)
    (h : (tokens.filter fun token => !token.isEmpty).foldlM Decoder.step d = some d') :
    Emits d (line tokens) d' := by
  have hwords := words_line hplain []
  rw [List.append_nil, words_nil, List.append_nil] at hwords
  refine ⟨fun rest => ?_, ?_⟩
  · rw [words_line hplain, hwords]
  · rwa [hwords]

section Lines
variable {d : Decoder}

theorem plain_of_decide {token : List Char} (h : token.all fun c => !c.isWhitespace) :
    Plain token := by
  intro c hc
  simpa using List.all_eq_true.mp h c hc

theorem filter_ne_nil {tokens : List (List Char)} (h : ∀ token ∈ tokens, token ≠ []) :
    (tokens.filter fun token => !token.isEmpty) = tokens := by
  refine List.filter_eq_self.mpr fun token ht => ?_
  simpa using h token ht

theorem emits_stamp (hidle : d.mode = .idle) (time : Nat) :
    Emits d (line ['#' :: Nat.toDigits 10 time]) { d with time } := by
  refine .line ?_ ?_
  · simpa using plain_append (show Plain ['#'] from plain_of_decide (by decide))
      (plain_toDigits (by decide) (by decide) time)
  · simp [Decoder.step, hidle]

theorem emits_scalar (hidle : d.mode = .idle) {c : Char} {id : List Char}
    (hc : c ∈ ['0', '1', 'x', 'z']) (hid : Plain id) :
    Emits d (line [c :: id]) (d.change id [c]) := by
  have hchar : Plain [c] := by
    intro c' hc'
    rw [List.mem_singleton.mp hc']
    exact (plain_of_decide (by decide) : Plain ['0', '1', 'x', 'z']) c hc
  refine .line (by simpa using plain_append hchar hid) ?_
  rcases List.mem_cons.mp hc with rfl | hc
  · simp [Decoder.step, hidle]
  rcases List.mem_cons.mp hc with rfl | hc
  · simp [Decoder.step, hidle]
  rcases List.mem_cons.mp hc with rfl | hc
  · simp [Decoder.step, hidle]
  · rw [List.mem_singleton.mp hc]
    simp [Decoder.step, hidle]

theorem emits_vector (hidle : d.mode = .idle) {text id : List Char} (htext : Plain text)
    (hid : Plain id) (hne : id ≠ []) :
    Emits d (line ['b' :: text, id]) (d.change id text) := by
  have hb : Plain ('b' :: text) :=
    plain_append (show Plain ['b'] from plain_of_decide (by decide)) htext
  refine .line ?_ ?_
  · intro token ht
    rcases List.mem_cons.mp ht with rfl | ht
    · exact hb
    · rwa [List.mem_singleton.mp ht]
  · rw [filter_ne_nil (by simp [hne])]
    simp [Decoder.step, hidle, Decoder.change]

theorem step_keyword (hidle : d.mode = .idle) {keyword : List Char}
    (h : Decoder.enclosesChanges keyword = false) :
    d.step ('$' :: keyword) = some { d with mode := .command keyword [] } := by
  rw [Decoder.step, hidle]
  exact if_neg (by rw [h]; decide)

theorem step_field {keyword : List Char} {fields : List (List Char)}
    (h : fields.length < Decoder.arity keyword) (token : List Char) :
    { d with mode := .command keyword fields }.step token =
      some { d with mode := .command keyword (fields ++ [token]) } := if_pos h

theorem step_end {keyword : List Char} {fields : List (List Char)}
    (h : ¬ fields.length < Decoder.arity keyword) :
    { d with mode := .command keyword fields }.step "$end".toList =
      some ({ d with mode := .command keyword fields }.finish keyword fields) :=
  (if_neg h).trans (if_pos rfl)

/-- The words of a command, read one by one. -/
theorem read_command {keyword : List Char} (read fields : List (List Char))
    (h : read.length + fields.length = Decoder.arity keyword) :
    (fields ++ ["$end".toList]).foldlM Decoder.step { d with mode := .command keyword read } =
      some ({ d with mode := .command keyword (read ++ fields) }.finish keyword
        (read ++ fields)) := by
  induction fields generalizing read with
  | nil =>
    rw [List.nil_append, List.foldlM_cons, step_end (by simp at h; omega), List.append_nil]
    rfl
  | cons field fields ih =>
    rw [List.length_cons] at h
    rw [List.cons_append, List.foldlM_cons, step_field (by omega)]
    refine (ih (read ++ [field]) (by simp; omega)).trans ?_
    rw [List.append_assoc, List.singleton_append]

theorem read_keyword (hidle : d.mode = .idle) (keyword : List Char) (fields : List (List Char))
    (hkeyword : Decoder.enclosesChanges keyword = false)
    (h : fields.length = Decoder.arity keyword) :
    (('$' :: keyword) :: fields ++ ["$end".toList]).foldlM Decoder.step d =
      some ({ d with mode := .command keyword fields }.finish keyword fields) := by
  rw [List.cons_append, List.foldlM_cons, step_keyword hidle hkeyword]
  exact read_command [] fields (by simpa using h)

theorem emits_var (hidle : d.mode = .idle) (width : Nat) {id : List Char} (hid : Plain id)
    (hne : id ≠ []) (name : Word) :
    Emits d (line ["$var".toList, "wire".toList, Nat.toDigits 10 width, id, name.chars,
        "$end".toList])
      { d with vars := d.vars ++ [⟨d.scopes, name.chars, width, id⟩] } := by
  have hdigits : Nat.toDigits 10 width ≠ [] := List.length_pos_iff.mp Nat.length_toDigits_pos
  refine .line ?_ ?_
  · intro token ht
    simp only [List.mem_cons, List.not_mem_nil, or_false] at ht
    rcases ht with rfl | rfl | rfl | rfl | rfl | rfl
    · exact plain_of_decide (by decide)
    · exact plain_of_decide (by decide)
    · exact plain_toDigits (by decide) (by decide) width
    · exact hid
    · exact name.plain
    · exact plain_of_decide (by decide)
  · rw [filter_ne_nil (by simp [hne, hdigits, name.ne_nil])]
    refine (read_keyword hidle "var".toList
      ["wire".toList, Nat.toDigits 10 width, id, name.chars] (by decide) rfl).trans ?_
    rw [Decoder.finish, Nat.ofDigitChars_ten_toDigits, hidle]

theorem emits_scope (hidle : d.mode = .idle) (scope : Word) :
    Emits d (line ["$scope".toList, "module".toList, scope.chars, "$end".toList])
      { d with scopes := scope.chars :: d.scopes } := by
  refine .line ?_ ?_
  · intro token ht
    simp only [List.mem_cons, List.not_mem_nil, or_false] at ht
    rcases ht with rfl | rfl | rfl | rfl
    · exact plain_of_decide (by decide)
    · exact plain_of_decide (by decide)
    · exact scope.plain
    · exact plain_of_decide (by decide)
  · rw [filter_ne_nil (by simp [scope.ne_nil])]
    refine (read_keyword hidle "scope".toList ["module".toList, scope.chars]
      (by decide) rfl).trans ?_
    rw [Decoder.finish, hidle]

theorem emits_upscope (hidle : d.mode = .idle) :
    Emits d (line ["$upscope".toList, "$end".toList]) { d with scopes := d.scopes.tail } := by
  refine .line (fun token ht => plain_of_decide ?_) ?_
  · revert token
    decide
  · rw [filter_ne_nil (by decide)]
    refine (read_keyword hidle "upscope".toList [] (by decide) rfl).trans ?_
    have hfinish : { d with mode := .command "upscope".toList [] }.finish "upscope".toList [] =
        { d with mode := .idle, scopes := d.scopes.tail } := rfl
    rw [hfinish, ← hidle]

end Lines
end Celox.Vcd

/-! ## What the writer emits

Every text the writer appends, read by the decoder: a change decodes to its value and mask, and the
header to one declaration for each signal. -/
namespace Celox.Vcd
open Celox.Text Celox.Bytes
open VcdWriter (fourStateChar)

/-! ## Digits -/

theorem readBits_append (bit : Char → Bool) (a b : List Char) :
    readBits bit (a ++ b) = b.foldl (fun value c => 2 * value + (bit c).toNat) (readBits bit a) :=
  List.foldl_append

theorem readBits_replicate_zero {bit : Char → Bool} (h : bit '0' = false) (n : Nat) :
    readBits bit (List.replicate n '0') = 0 := by
  induction n with
  | zero => rfl
  | succ n ih => rw [List.replicate_succ', readBits_append, ih]; simp [h]

theorem leftExtend_binary (width : Nat) {text : List Char} (h : ∀ c ∈ text, c = '0' ∨ c = '1') :
    leftExtend width text = List.replicate (width - text.length) '0' ++ text := by
  cases text with
  | nil => rfl
  | cons c text => rcases h c List.mem_cons_self with rfl | rfl <;> rfl

theorem readBits_isUnknown_binary {text : List Char} (h : ∀ c ∈ text, c = '0' ∨ c = '1') :
    readBits isUnknown text = 0 := by
  induction text using List.reverseRecOn with
  | nil => rfl
  | append_singleton text c ih =>
    rw [readBits_append, ih fun c hc => h c (List.mem_append_left _ hc)]
    rcases h c (by simp) with rfl | rfl <;> rfl

theorem readBits_isOne_binary {text : List Char} (h : ∀ c ∈ text, c = '0' ∨ c = '1') :
    readBits isOne text = Nat.ofDigitChars 2 text 0 := by
  induction text using List.reverseRecOn with
  | nil => rfl
  | append_singleton text c ih =>
    rw [readBits_append, Nat.ofDigitChars_append, ih fun c hc => h c (List.mem_append_left _ hc)]
    rcases h c (by simp) with rfl | rfl <;> rfl

/-- Leading zeros may be left out. -/
theorem digitsValue_binary {width value : Nat} {text : List Char}
    (h : ∀ c ∈ text, c = '0' ∨ c = '1') (hvalue : Nat.ofDigitChars 2 text 0 = value)
    (hlt : value < 2 ^ width) : digitsValue width text = (value, 0) := by
  have hone := readBits_isOne_binary h
  have hunknown := readBits_isUnknown_binary h
  rw [digitsValue, leftExtend_binary width h]
  rw [readBits_append, readBits_append, readBits_replicate_zero rfl, readBits_replicate_zero rfl]
  change (readBits isOne text % _, readBits isUnknown text % _) = _
  rw [hone, hunknown, hvalue, Nat.mod_eq_of_lt hlt, Nat.zero_mod]

theorem digitsValue_toDigits {width value : Nat} (hlt : value < 2 ^ width) :
    digitsValue width (Nat.toDigits 2 value) = (value, 0) :=
  digitsValue_binary (fun _ => mem_toDigits_two) (Nat.ofDigitChars_toDigits (by decide) (by decide))
    hlt

/-- All bits of a number from the highest on. -/
theorem readBits_testBit (bit : Char → Bool) (char : Nat → Char) (n width : Nat)
    (h : ∀ i, bit (char i) = n.testBit i) :
    readBits bit ((List.range width).reverse.map char) = n % 2 ^ width := by
  have hfold : ∀ acc, ((List.range width).reverse.map char).foldl
      (fun value c => 2 * value + (bit c).toNat) acc = acc * 2 ^ width + n % 2 ^ width := by
    induction width with
    | zero => simp [Nat.mod_one]
    | succ width ih =>
      intro acc
      rw [List.range_succ, List.reverse_append, List.reverse_singleton, List.singleton_append,
        List.map_cons, List.foldl_cons, ih, h, Nat.mod_pow_succ, Nat.toNat_testBit, Nat.pow_succ]
      ring
  rw [readBits, hfold, Nat.zero_mul, Nat.zero_add]

theorem isOne_fourStateChar (mask value : Bool) : isOne (fourStateChar mask value) = value := by
  cases mask <;> cases value <;> rfl

theorem isUnknown_fourStateChar (mask value : Bool) :
    isUnknown (fourStateChar mask value) = mask := by
  cases mask <;> cases value <;> rfl

theorem fourStateChar_mem (mask value : Bool) : fourStateChar mask value ∈ ['0', '1', 'x', 'z'] := by
  cases mask <;> cases value <;> decide

theorem digitsValue_fourState {width value mask : Nat} (hvalue : value < 2 ^ width)
    (hmask : mask < 2 ^ width) :
    digitsValue width ((List.range width).reverse.map fun i =>
      fourStateChar (mask.testBit i) (value.testBit i)) = (value, mask) := by
  rw [digitsValue, leftExtend, List.length_map, List.length_reverse, List.length_range, Nat.sub_self, List.replicate_zero,
    List.nil_append, readBits_testBit isOne _ value width fun i => isOne_fourStateChar _ _,
    readBits_testBit isUnknown _ mask width fun i => isUnknown_fourStateChar _ _, Nat.mod_mod,
    Nat.mod_mod, Nat.mod_eq_of_lt hvalue, Nat.mod_eq_of_lt hmask]

/-! ## Changes -/

/-- The text of a change stands for its value and its mask. -/
theorem emits_changeText {d : Decoder} (hidle : d.mode = .idle) {signal : VcdWriterSignal}
    {value mask : Nat} {is4state : Bool} (hid : Plain signal.vcdId) (hne : signal.vcdId ≠ [])
    (hvalue : value < 2 ^ signal.width) (hmask : mask < 2 ^ signal.width)
    (hknown : is4state = false → mask = 0) :
    ∃ text, Emits d (VcdWriter.changeText signal value mask is4state)
        (d.change signal.vcdId text) ∧
      digitsValue signal.width text = (value, mask) := by
  unfold VcdWriter.changeText
  split
  · unfold VcdWriter.fourStateValue
    by_cases hw : signal.width = 1
    · rw [if_pos hw]
      refine ⟨_, emits_scalar hidle (fourStateChar_mem _ _) hid, ?_⟩
      rw [hw] at hvalue hmask ⊢
      exact digitsValue_fourState hvalue hmask
    · rw [if_neg hw]
      refine ⟨_, emits_vector hidle ?_ hid hne, digitsValue_fourState hvalue hmask⟩
      intro c hc
      obtain ⟨i, -, rfl⟩ := List.mem_map.mp hc
      cases mask.testBit i <;> cases value.testBit i <;> decide
  · rename_i hstate
    have hzero : mask = 0 := by
      by_contra h
      exact hstate ⟨by rw [← Bool.not_eq_false]; exact fun h4 => h (hknown h4), h⟩
    subst hzero
    by_cases hw : signal.width = 1
    · rw [if_pos hw]
      rw [hw] at hvalue ⊢
      obtain rfl | rfl : value = 0 ∨ value = 1 := by omega
      · exact ⟨['0'], emits_scalar hidle (by decide) hid, rfl⟩
      · exact ⟨['1'], emits_scalar hidle (by decide) hid, rfl⟩
    · rw [if_neg hw]
      exact ⟨_, emits_vector hidle (plain_toDigits (by decide) (by decide) value) hid hne,
        digitsValue_toDigits hvalue⟩

end Celox.Vcd
