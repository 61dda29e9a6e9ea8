import Mathlib

/-! # Text as words between blanks

Text that is written in lines of words is read back as these words. -/
namespace Celox.Text

/-- No blank inside. -/
def Plain (token : List Char) : Prop := ∀ c ∈ token, c.isWhitespace = false

structure Word where
  chars : List Char
  ne_nil : chars ≠ []
  plain : Plain chars
  deriving DecidableEq

def words (text : List Char) : List (List Char) :=
  (text.splitOnP Char.isWhitespace).filter fun token => !token.isEmpty

@[simp] theorem words_nil : words [] = [] := rfl

theorem words_append_blank (before after : List Char) {c : Char} (h : c.isWhitespace = true) :
    words (before ++ c :: after) = words before ++ words after := by
  rw [words, List.splitOnP_append_cons before after h, List.filter_append]
  rfl

theorem words_plain {token : List Char} (h : Plain token) :
    words token = [token].filter fun token => !token.isEmpty := by
  rw [words, List.splitOnP_eq_singleton h]

/-- A line: its words with one space in between. -/
def line : List (List Char) → List Char
  | [] => ['\n']
  | [token] => token ++ ['\n']
  | token :: next :: tokens => token ++ ' ' :: line (next :: tokens)

theorem words_line {tokens : List (List Char)} (h : ∀ token ∈ tokens, Plain token)
    (rest : List Char) :
    words (line tokens ++ rest) = (tokens.filter fun token => !token.isEmpty) ++ words rest := by
  induction tokens with
  | nil => exact words_append_blank [] rest (by decide)
  | cons token tokens ih =>
    have hplain := words_plain (h token List.mem_cons_self)
    have ih := ih fun t ht => h t (List.mem_cons_of_mem _ ht)
    cases tokens with
    | nil =>
      rw [line, List.append_assoc, List.singleton_append, words_append_blank token rest (by decide),
        hplain]
    | cons next tokens =>
      rw [line, List.append_assoc, List.cons_append, words_append_blank token _ (by decide), ih,
        hplain, ← List.append_assoc, ← List.filter_append]
      rfl

/-! ## Digits -/

theorem plain_toDigits {base : Nat} (hpos : 0 < base) (hbase : base ≤ 10) (n : Nat) :
    Plain (Nat.toDigits base n) := by
  intro c hc
  have hdigit := Nat.isDigit_of_mem_toDigits hpos hbase hc
  have hne : ∀ d : Char, d.isDigit = false → c ≠ d := by
    rintro d hd rfl
    rw [hd] at hdigit
    cases hdigit
  simp [Char.isWhitespace, hne ' ' (by decide), hne '\t' (by decide), hne '\r' (by decide),
    hne '\n' (by decide)]

theorem plain_append {a b : List Char} (ha : Plain a) (hb : Plain b) : Plain (a ++ b) := by
  intro c hc
  rcases List.mem_append.mp hc with h | h
  · exact ha c h
  · exact hb c h

/-- Binary digits. -/
theorem mem_toDigits_two {c : Char} {n : Nat} (h : c ∈ Nat.toDigits 2 n) : c = '0' ∨ c = '1' := by
  induction n using Nat.strongRecOn with
  | ind n ih =>
    have hdigit : ∀ d, d < 2 → Nat.digitChar d = '0' ∨ Nat.digitChar d = '1' := by decide
    rw [Nat.toDigits_eq_if (by decide)] at h
    split at h
    · rename_i hlt
      rw [List.mem_singleton.mp h]
      exact hdigit n hlt
    · rcases List.mem_append.mp h with h | h
      · exact ih (n / 2) (by omega) h
      · rw [List.mem_singleton.mp h]
        exact hdigit _ (Nat.mod_lt n (by decide))

end Celox.Text
