/-
The tokens of a command line, and what `peek` and `gettoken` see of them.
-/
import EAFITos.Shell
import Mathlib.Data.List.TakeWhile

universe u v

namespace EAFITos.Shell

open List Option

/-- A token, over the type of words. -/
inductive Token (W : Type u) where
  | bar
  | lparen
  | rparen
  | semi
  | amp
  | less
  | great
  | append
  | word (w : W)
  deriving DecidableEq, Repr

namespace Token

variable {W : Type u} {V : Type v}

/-- What `gettoken` returns for the token. -/
def code : Token W → Char
  | bar => '|'
  | lparen => '('
  | rparen => ')'
  | semi => ';'
  | amp => '&'
  | less => '<'
  | great => '>'
  | append => '+'
  | word _ => 'a'

/-- The first character of a token that is not a word. -/
def symbol : Token W → Option Char
  | bar => some '|'
  | lparen => some '('
  | rparen => some ')'
  | semi => some ';'
  | amp => some '&'
  | less => some '<'
  | great | append => some '>'
  | word _ => none

def map (f : W → V) : Token W → Token V
  | bar => bar
  | lparen => lparen
  | rparen => rparen
  | semi => semi
  | amp => amp
  | less => less
  | great => great
  | append => append
  | word w => word (f w)

/-- The token is a symbol among `toks`. -/
def among (toks : List Char) (t : Token W) : Bool := t.symbol.any toks.contains

theorem symbol_mem {t : Token W} {c : Char} (h : t.symbol = some c) : c ∈ symbols := by
  cases t <;> cases h <;> decide

theorem code_ne_nul (t : Token W) : t.code ≠ '\x00' := by
  cases t <;> simp [code]

end Token

/-- A character of a word. -/
def WordChar (c : Char) : Prop := c ≠ '\x00' ∧ c ∉ whitespace ∧ c ∉ symbols

/-- The line does not go on with a character of a word. -/
def WordEnds (s : List Char) : Prop := ∀ c ∈ s.head?, ¬ WordChar c

/-- The line `s` consists of the tokens `ts`, with whitespace around them.  `word` names a word
by its text and what follows it in the line. -/
inductive Lexes {W : Type u} (word : List Char → List Char → W) :
    List Char → List (Token W) → Prop
  | nil : Lexes word [] []
  | space {c : Char} {s : List Char} {ts : List (Token W)} : c ∈ whitespace →
      Lexes word s ts → Lexes word (c :: s) ts
  | single (t : Token W) {c : Char} {s : List Char} {ts : List (Token W)} : t.symbol = some c →
      c ≠ '>' → Lexes word s ts → Lexes word (c :: s) (t :: ts)
  | great {s : List Char} {ts : List (Token W)} : s.head? ≠ some '>' →
      Lexes word s ts → Lexes word ('>' :: s) (.great :: ts)
  | append {s : List Char} {ts : List (Token W)} :
      Lexes word s ts → Lexes word ('>' :: '>' :: s) (.append :: ts)
  | word (w : List Char) {s : List Char} {ts : List (Token W)} : w ≠ [] → (∀ c ∈ w, WordChar c) →
      WordEnds s → Lexes word s ts → Lexes word (w ++ s) (.word (word w s) :: ts)

variable {W : Type u} {V : Type v} {word : List Char → List Char → W} {s : List Char}
  {t : Token W} {ts : List (Token W)} {c : Char}

theorem isSpace_iff : isSpace c = true ↔ c ∈ whitespace := contains_iff_mem

theorem symbol_not_space (h : c ∈ symbols) : isSpace c = false := by
  have hall : symbols.all (fun c => !isSpace c) = true := by decide
  exact (Bool.not_eq_true' _).mp (all_eq_true.mp hall c h)

theorem WordChar.not_space (h : WordChar c) : isSpace c = false := by
  rw [← Bool.not_eq_true, isSpace_iff]
  exact h.2.1

theorem isWordChar_iff : isWordChar c = true ↔ c ∉ whitespace ∧ c ∉ symbols := by
  simp [isWordChar]

theorem skip_cons_of_space (h : c ∈ whitespace) : skip (c :: s) = skip s :=
  dropWhile_cons_of_pos (isSpace_iff.mpr h)

theorem skip_cons_of_not_space (h : isSpace c = false) : skip (c :: s) = c :: s :=
  dropWhile_cons_of_neg (by simp [h])

/-- The line begins with its first token. -/
def AtToken (s : List Char) : Prop := skip s = s

/-- Passing over whitespace leads to the first token. -/
theorem Lexes.skip (h : Lexes word s ts) : Lexes word (skip s) ts ∧ AtToken (Shell.skip s) := by
  have hsymbol : ∀ {c : Char} {s : List Char} {ts : List (Token W)}, c ∈ symbols →
      Lexes word (c :: s) ts →
      Lexes word (Shell.skip (c :: s)) ts ∧ AtToken (Shell.skip (c :: s)) := by
    intro c s ts hc hlex
    have hskip := skip_cons_of_not_space (s := s) (symbol_not_space hc)
    rw [hskip]
    exact ⟨hlex, hskip⟩
  induction h with
  | nil => exact ⟨.nil, rfl⟩
  | space hc _ ih =>
    rw [skip_cons_of_space hc]
    exact ih
  | single t ht hc hlex => exact hsymbol (Token.symbol_mem ht) (.single t ht hc hlex)
  | great hs hlex => exact hsymbol (by decide) (.great hs hlex)
  | append hlex => exact hsymbol (by decide) (.append hlex)
  | @word w s ts hne hw hends hlex =>
    cases w with
    | nil => exact absurd rfl hne
    | cons c w =>
      have hskip := skip_cons_of_not_space (s := w ++ s) (hw c mem_cons_self).not_space
      rw [cons_append, hskip]
      exact ⟨.word (c :: w) hne hw hends hlex, hskip⟩

/-- A character that is no whitespace. -/
theorem AtToken.not_space (h : AtToken (c :: s)) : c ∉ whitespace := by
  intro hc
  rw [AtToken, skip_cons_of_space hc] at h
  have hlength := congrArg List.length h
  have hle : (Shell.skip s).length ≤ s.length := (dropWhile_sublist _).length_le
  rw [length_cons] at hlength
  omega

/-- `peek` leaves the tokens as they are. -/
theorem Lexes.peek (h : Lexes word s ts) (toks : List Char) : Lexes word (peek s toks).2 ts :=
  h.skip.1

theorem Lexes.peek_fst (h : Lexes word s ts) {toks : List Char} (htoks : toks ⊆ symbols) :
    (Shell.peek s toks).1 = ts.head?.any (Token.among toks) := by
  obtain ⟨hlex, hat⟩ := h.skip
  rw [Shell.peek]
  generalize Shell.skip s = s at hlex hat
  cases hlex with
  | nil => rfl
  | space hc => exact absurd hc hat.not_space
  | single t ht =>
    dsimp only
    rw [head?_cons, any_some, Token.among, ht, any_some]
  | great => rfl
  | append => rfl
  | word w hne hw =>
    cases w with
    | nil => exact absurd rfl hne
    | cons c w =>
      have hc := (hw c mem_cons_self).2.2
      have hout : c ∉ toks := fun hin => hc (htoks hin)
      simpa [Token.among, Token.symbol] using hout

theorem dropWhile_word {w : List Char} (hw : ∀ c ∈ w, WordChar c) (hends : WordEnds s)
    (hs : '\x00' ∉ s) : (w ++ s).dropWhile isWordChar = s := by
  induction w with
  | nil =>
    cases s with
    | nil => rfl
    | cons c s =>
      refine dropWhile_cons_of_neg fun hc => ?_
      have hzero : c ≠ '\x00' := fun heq => hs (heq ▸ mem_cons_self)
      exact hends c rfl ⟨hzero, isWordChar_iff.mp hc⟩
  | cons c w ih =>
    have hc : isWordChar c = true := isWordChar_iff.mpr (hw c mem_cons_self).2
    rw [cons_append, dropWhile_cons_of_pos hc]
    exact ih fun d hd => hw d (mem_cons_of_mem c hd)

theorem Lexes.no_nul (h : Lexes word s ts) : '\x00' ∉ s := by
  induction h with
  | nil => exact not_mem_nil
  | space hc _ ih =>
    rintro (_ | ⟨_, hin⟩)
    · revert hc
      decide
    · exact ih hin
  | single t ht _ _ ih =>
    rintro (_ | ⟨_, hin⟩)
    · have hmem := Token.symbol_mem ht
      revert hmem
      decide
    · exact ih hin
  | great _ _ ih =>
    rintro (_ | ⟨_, hin⟩)
    exact ih hin
  | append _ ih =>
    rintro (_ | ⟨_, _ | ⟨_, hin⟩⟩)
    exact ih hin
  | word w _ hw _ _ ih =>
    intro hin
    rcases mem_append.mp hin with hin | hin
    · exact (hw _ hin).1 rfl
    · exact ih hin

theorem scan_great (h : s.head? ≠ some '>') : scan ('>' :: s) = ('>', s) := by
  unfold scan
  split <;> simp_all

theorem scan_word (h : WordChar c) : scan (c :: s) = ('a', (c :: s).dropWhile isWordChar) := by
  have hsymbol : ∀ d ∈ symbols, c ≠ d := fun d hd heq => h.2.2 (heq ▸ hd)
  have hzero := h.1
  simp only [symbols, forall_mem_cons] at hsymbol
  unfold scan
  split <;> simp_all

/-- A word of the line as the parser keeps it. -/
def place (w s : List Char) : Word := ⟨w ++ s, s⟩

theorem Lexes.gettoken_nil (h : Lexes word s []) :
    (gettoken s).ret = '\x00' ∧ (gettoken s).s = [] := by
  obtain ⟨hlex, hat⟩ := h.skip
  rw [gettoken]
  generalize Shell.skip s = s at hlex hat
  cases hlex with
  | nil => exact ⟨rfl, rfl⟩
  | space hc => exact absurd hc hat.not_space

/-- `gettoken` takes the next token. -/
theorem Lexes.gettoken_cons {ts : List (Token Word)} {t : Token Word}
    (h : Lexes place s (t :: ts)) :
    (gettoken s).ret = t.code ∧ Lexes place (gettoken s).s ts ∧
      ∀ w, t = .word w → w = ⟨(gettoken s).q, (gettoken s).eq⟩ := by
  obtain ⟨hlex, hat⟩ := h.skip
  rw [gettoken]
  generalize Shell.skip s = s at hlex hat
  cases hlex with
  | space hc => exact absurd hc hat.not_space
  | single t ht hc hlex =>
    cases t
    case word => cases ht
    case great | append => exact absurd (some.inj ht).symm hc
    all_goals
      obtain rfl := some.inj ht
      exact ⟨rfl, hlex.skip.1, nofun⟩
  | great hs hlex =>
    rw [scan_great hs]
    exact ⟨rfl, hlex.skip.1, nofun⟩
  | append hlex => exact ⟨rfl, hlex.skip.1, nofun⟩
  | word w hne hw hends hlex =>
    have hdrop := dropWhile_word hw hends hlex.no_nul
    cases w with
    | nil => exact absurd rfl hne
    | cons c w =>
      rw [cons_append] at hdrop ⊢
      rw [scan_word (hw c mem_cons_self), hdrop]
      refine ⟨rfl, hlex.skip.1, ?_⟩
      intro v hv
      exact (Token.word.inj hv).symm

/-- A word is the only token with its code. -/
theorem Lexes.gettoken_word {ts : List (Token Word)} (h : Lexes place s ts)
    (hret : (gettoken s).ret = 'a') :
    ∃ rest, ts = .word ⟨(gettoken s).q, (gettoken s).eq⟩ :: rest ∧
      Lexes place (gettoken s).s rest := by
  cases ts with
  | nil =>
    rw [h.gettoken_nil.1] at hret
    exact absurd hret (by decide)
  | cons t rest =>
    obtain ⟨hcode, hlex, hword⟩ := h.gettoken_cons
    rw [hret] at hcode
    cases t
    case word w =>
      rw [hword w rfl]
      exact ⟨rest, rfl, hlex⟩
    all_goals exact absurd hcode (by decide)

theorem Lexes.length_le (h : Lexes word s ts) : ts.length ≤ s.length := by
  induction h with
  | nil => exact Nat.le_refl 0
  | space _ _ ih => exact Nat.le_succ_of_le ih
  | single _ _ _ _ ih | great _ _ ih => exact Nat.succ_le_succ ih
  | append _ ih => exact Nat.succ_le_succ (Nat.le_succ_of_le ih)
  | word w hne _ _ _ ih =>
    have hpos := length_pos_iff.mpr hne
    rw [length_cons, length_append]
    omega

/-- Words may be named in another way. -/
theorem Lexes.map (h : Lexes word s ts) (f : W → V) :
    Lexes (fun w s => f (word w s)) s (ts.map (Token.map f)) := by
  induction h with
  | nil => exact .nil
  | space hc _ ih => exact .space hc ih
  | single t ht hc _ ih =>
    refine .single (t.map f) ?_ hc ih
    cases t <;> exact ht
  | great hs _ ih => exact .great hs ih
  | append _ ih => exact .append ih
  | word w hne hw hends _ ih => exact .word w hne hw hends ih

theorem exists_symbol (h : c ∈ symbols) : ∃ t : Token W, t.symbol = some c := by
  simp only [symbols, mem_cons, not_mem_nil, or_false] at h
  rcases h with rfl | rfl | rfl | rfl | rfl | rfl | rfl
  exacts [⟨.less, rfl⟩, ⟨.bar, rfl⟩, ⟨.great, rfl⟩, ⟨.amp, rfl⟩, ⟨.semi, rfl⟩, ⟨.lparen, rfl⟩,
    ⟨.rparen, rfl⟩]

/-- Every line has its tokens. -/
theorem exists_lexes (word : List Char → List Char → W) (hs : '\x00' ∉ s) :
    ∃ ts, Lexes word s ts := by
  induction hn : s.length using Nat.strongRecOn generalizing s with
  | ind n ih =>
    cases s with
    | nil => exact ⟨[], .nil⟩
    | cons c s =>
      have hrest : ∀ s', s' <:+ s → ∃ ts, Lexes word s' ts := by
        intro s' hsuffix
        have hle := hsuffix.length_le
        refine ih s'.length ?_ (fun hin => hs (mem_cons_of_mem c (hsuffix.subset hin))) rfl
        rw [← hn, length_cons]
        omega
      by_cases hspace : c ∈ whitespace
      · obtain ⟨ts, hlex⟩ := hrest s (suffix_refl s)
        exact ⟨ts, .space hspace hlex⟩
      by_cases hsymbol : c ∈ symbols
      · by_cases hgreat : c = '>'
        · subst hgreat
          by_cases hhead : s.head? = some '>'
          · obtain ⟨s', rfl⟩ := head?_eq_some_iff.mp hhead
            obtain ⟨ts, hlex⟩ := hrest s' (suffix_cons _ _)
            exact ⟨_, .append hlex⟩
          · obtain ⟨ts, hlex⟩ := hrest s (suffix_refl s)
            exact ⟨_, .great hhead hlex⟩
        · obtain ⟨t, ht⟩ := exists_symbol (W := W) hsymbol
          obtain ⟨ts, hlex⟩ := hrest s (suffix_refl s)
          exact ⟨_, .single t ht hgreat hlex⟩
      · have hc : isWordChar c = true := isWordChar_iff.mpr ⟨hspace, hsymbol⟩
        have hsplit := takeWhile_append_dropWhile (p := isWordChar) (l := c :: s)
        rw [dropWhile_cons_of_pos hc] at hsplit
        obtain ⟨ts, hlex⟩ := hrest (s.dropWhile isWordChar) (dropWhile_suffix _)
        rw [← hsplit] at hs ⊢
        refine ⟨_, .word _ ?_ (fun d hd => ⟨?_, ?_⟩) (fun d hd hword => ?_) hlex⟩
        · rw [takeWhile_cons_of_pos hc]
          exact cons_ne_nil _ _
        · exact fun heq => hs (mem_append_left _ (heq ▸ hd))
        · exact isWordChar_iff.mp (mem_takeWhile_imp hd)
        · have hnot := head?_dropWhile_not isWordChar s
          rw [mem_def.mp hd] at hnot
          exact Bool.false_ne_true (hnot.symm.trans (isWordChar_iff.mpr hword.2))

/-- Tokens named in another way come from the tokens of the line. -/
theorem Lexes.exists_map {f : W → V} {ts : List (Token V)}
    (h : Lexes (fun w s => f (word w s)) s ts) :
    ∃ ts', Lexes word s ts' ∧ ts = ts'.map (Token.map f) := by
  induction h with
  | nil => exact ⟨[], .nil, rfl⟩
  | space hc _ ih =>
    obtain ⟨ts', hlex, rfl⟩ := ih
    exact ⟨ts', .space hc hlex, rfl⟩
  | single t ht hc _ ih =>
    obtain ⟨ts', hlex, rfl⟩ := ih
    cases t
    case word => cases ht
    case bar => exact ⟨.bar :: ts', .single .bar ht hc hlex, rfl⟩
    case lparen => exact ⟨.lparen :: ts', .single .lparen ht hc hlex, rfl⟩
    case rparen => exact ⟨.rparen :: ts', .single .rparen ht hc hlex, rfl⟩
    case semi => exact ⟨.semi :: ts', .single .semi ht hc hlex, rfl⟩
    case amp => exact ⟨.amp :: ts', .single .amp ht hc hlex, rfl⟩
    case less => exact ⟨.less :: ts', .single .less ht hc hlex, rfl⟩
    case great | append => exact absurd (some.inj ht).symm hc
  | great hs _ ih =>
    obtain ⟨ts', hlex, rfl⟩ := ih
    exact ⟨_, .great hs hlex, rfl⟩
  | append _ ih =>
    obtain ⟨ts', hlex, rfl⟩ := ih
    exact ⟨_, .append hlex, rfl⟩
  | word w hne hw hends _ ih =>
    obtain ⟨ts', hlex, rfl⟩ := ih
    exact ⟨_, .word w hne hw hends hlex, rfl⟩

end EAFITos.Shell
