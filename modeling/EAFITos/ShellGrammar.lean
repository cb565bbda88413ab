/-
The grammar of command lines, over tokens:

  line  :=  pipe '&'* [';' line]
  pipe  :=  exec ['|' pipe]
  exec  :=  '(' line ')' redir*  |  redir* (word redir*)*
  redir :=  ('<' | '>' | '>>') word

The parser returns the tree of the derivation when there is one, and panics when there is none.
-/
import EAFITos.ShellTokens

universe u v

namespace EAFITos.Shell

open List Option

variable {toks : List Char} {ts' : List (Token Word)} {nt : Nonterminal}

/-- A redirection: for input, for output, or `>>`. -/
inductive RedirKind where
  | input
  | output
  | append
  deriving DecidableEq, Repr

namespace RedirKind

def token {W : Type u} : RedirKind → Token W
  | input => .less
  | output => .great
  | append => .append

def mode : RedirKind → Nat
  | input => O_RDONLY
  | output => O_WRONLY ||| O_CREATE ||| O_TRUNC
  | append => O_WRONLY ||| O_CREATE

def fd : RedirKind → Nat
  | input => 0
  | output | append => 1

end RedirKind

structure Redir (W : Type u) where
  kind : RedirKind
  file : W

/-- The redirections around a tree, the first of them innermost. -/
def wrap {W : Type u} (rs : List (Redir W)) (t : Cmd W) : Cmd W :=
  rs.foldl (fun t r => .redir t r.file r.kind.mode r.kind.fd) t

/-- `n` times `backcmd`. -/
def backs {W : Type u} (n : Nat) (t : Cmd W) : Cmd W := Nat.repeat .back n t

theorem backs_succ {W : Type u} (n : Nat) (t : Cmd W) : backs n (.back t) = backs (n + 1) t := by
  induction n with
  | zero => rfl
  | succ n ih => exact congrArg Cmd.back ih

/-- `redir*` -/
inductive Redirs {W : Type u} : List (Token W) → List (Redir W) → Prop
  | nil : Redirs [] []
  | cons (r : Redir W) {ts : List (Token W)} {rs : List (Redir W)} : Redirs ts rs →
      Redirs (r.kind.token :: .word r.file :: ts) (r :: rs)

/-- `(word redir*)*` -/
inductive Args {W : Type u} : List (Token W) → List W → List (Redir W) → Prop
  | nil : Args [] [] []
  | cons (w : W) {ts ts' : List (Token W)} {ws : List W} {rs rs' : List (Redir W)} :
      Redirs ts rs → Args ts' ws rs' → Args (.word w :: (ts ++ ts')) (w :: ws) (rs ++ rs')

inductive Nonterminal where
  | line
  | pipe
  | exec
  deriving DecidableEq, Repr

/-- The derivations of the grammar and their trees. -/
inductive Derives {W : Type u} : Nonterminal → List (Token W) → Cmd W → Prop
  | args {ts ts' : List (Token W)} {ws : List W} {rs rs' : List (Redir W)} : Redirs ts rs →
      Args ts' ws rs' → ws.length ≤ MAXARGS - 1 →
      Derives .exec (ts ++ ts') (wrap (rs ++ rs') (.exec ws))
  | block {ts ts' : List (Token W)} {t : Cmd W} {rs : List (Redir W)} : Derives .line ts t →
      Redirs ts' rs → Derives .exec (.lparen :: (ts ++ .rparen :: ts')) (wrap rs t)
  | exec {ts : List (Token W)} {t : Cmd W} : Derives .exec ts t → Derives .pipe ts t
  | pipe {ts ts' : List (Token W)} {t t' : Cmd W} : Derives .exec ts t → Derives .pipe ts' t' →
      Derives .pipe (ts ++ .bar :: ts') (.pipe t t')
  | last (n : Nat) {ts : List (Token W)} {t : Cmd W} : Derives .pipe ts t →
      Derives .line (ts ++ replicate n .amp) (backs n t)
  | line (n : Nat) {ts ts' : List (Token W)} {t t' : Cmd W} : Derives .pipe ts t →
      Derives .line ts' t' →
      Derives .line (ts ++ (replicate n .amp ++ .semi :: ts')) (.list (backs n t) t')

variable {s : List Char} {t : Cmd Word} {ts pre rest : List (Token Word)} {fuel : Nat}
  {rs : List (Redir Word)} {ws : List Word}

/-! ## What the parser returns is derived -/

/-- A parsing function panics, or returns a tree and the tokens that are left as `Q` says. -/
def Ends (Q : Cmd Word → List (Token Word) → Prop) :
    Except Stop (Cmd Word × List Char) → Prop
  | .ok (t, s) => ∃ rest, Lexes place s rest ∧ Q t rest
  | .error (.panic _) => True
  | .error _ => False

theorem Ends.bind {Q Q' : Cmd Word → List (Token Word) → Prop}
    {x : Except Stop (Cmd Word × List Char)}
    {f : Cmd Word × List Char → Except Stop (Cmd Word × List Char)} (hx : Ends Q x)
    (hf : ∀ t s rest, Lexes place s rest → Q t rest → Ends Q' (f (t, s))) :
    Ends Q' (x >>= f) := by
  match x, hx with
  | .ok (t, s), ⟨rest, hlex, hq⟩ => exact hf t s rest hlex hq
  | .error (.panic _), _ => exact trivial

theorem Ends.mono {Q Q' : Cmd Word → List (Token Word) → Prop}
    {x : Except Stop (Cmd Word × List Char)} (hx : Ends Q x) (h : ∀ t rest, Q t rest → Q' t rest) :
    Ends Q' x := by
  match x, hx with
  | .ok (t, s), ⟨rest, hlex, hq⟩ => exact ⟨rest, hlex, h t rest hq⟩
  | .error (.panic _), _ => exact trivial

/-- The next token, when `peek` finds one of these symbols. -/
theorem Lexes.peek_true (h : Lexes place s ts) (htoks : toks ⊆ symbols)
    (hpeek : (Shell.peek s toks).1 = true) :
    ∃ t rest, ts = t :: rest ∧ t.among toks ∧ (gettoken (Shell.peek s toks).2).ret = t.code ∧
      Lexes place (gettoken (Shell.peek s toks).2).s rest := by
  rw [h.peek_fst htoks] at hpeek
  cases ts with
  | nil => cases hpeek
  | cons t rest =>
    obtain ⟨hret, hrest, -⟩ := (h.peek toks).gettoken_cons
    exact ⟨t, rest, rfl, hpeek, hret, hrest⟩

theorem redircmd_code (kind : RedirKind) (cmd : Cmd Word) (file : Word) :
    redircmd (kind.token : Token Word).code cmd file = .redir cmd file kind.mode kind.fd := by
  cases kind <;> rfl

theorem exists_kind {t : Token Word} (h : t.among ['<', '>']) : ∃ kind : RedirKind, t = kind.token := by
  cases t
  case less => exact ⟨.input, rfl⟩
  case great => exact ⟨.output, rfl⟩
  case append => exact ⟨.append, rfl⟩
  all_goals cases h

theorem parseredirs_sound (cmd : Cmd Word) (h : Lexes place s ts) (hfuel : ts.length < fuel) :
    Ends (fun t rest => ∃ pre rs, ts = pre ++ rest ∧ Redirs pre rs ∧ t = wrap rs cmd)
      (parseredirs fuel cmd s) := by
  induction fuel generalizing cmd s ts with
  | zero => exact absurd hfuel (Nat.not_lt_zero _)
  | succ fuel ih =>
    rw [parseredirs]
    dsimp only
    split
    case isFalse => exact ⟨ts, h.peek _, [], [], rfl, .nil, rfl⟩
    case isTrue hpeek =>
      obtain ⟨t, ts, rfl, hamong, hret, hlex⟩ := h.peek_true (by decide) hpeek
      obtain ⟨kind, rfl⟩ := exists_kind hamong
      split
      case isTrue => exact trivial
      case isFalse hfile =>
        obtain ⟨ts, rfl, hrest⟩ := hlex.gettoken_word (not_not.mp hfile)
        rw [hret, redircmd_code]
        rw [length_cons, length_cons] at hfuel
        refine (ih _ hrest (by omega)).mono ?_
        rintro t rest ⟨pre, rs, rfl, hredirs, rfl⟩
        exact ⟨_, _, rfl, .cons ⟨kind, _⟩ hredirs, rfl⟩

theorem parsebacks_sound (cmd : Cmd Word) (h : Lexes place s ts) (hfuel : ts.length < fuel) :
    Ends (fun t rest => ∃ n, ts = replicate n .amp ++ rest ∧ t = backs n cmd)
      (parsebacks fuel cmd s) := by
  induction fuel generalizing cmd s ts with
  | zero => exact absurd hfuel (Nat.not_lt_zero _)
  | succ fuel ih =>
    rw [parsebacks]
    dsimp only
    split
    case isFalse => exact ⟨ts, h.peek _, 0, rfl, rfl⟩
    case isTrue hpeek =>
      obtain ⟨t, ts, rfl, hamong, -, hlex⟩ := h.peek_true (by decide) hpeek
      obtain rfl : t = .amp := by
        cases t <;> first | rfl | cases hamong
      rw [length_cons] at hfuel
      refine (ih (.back cmd) hlex (by omega)).mono ?_
      rintro t rest ⟨n, rfl, rfl⟩
      exact ⟨n + 1, rfl, backs_succ n cmd⟩

theorem wrap_append {W : Type u} (rs rs' : List (Redir W)) (t : Cmd W) :
    wrap (rs ++ rs') t = wrap rs' (wrap rs t) :=
  foldl_append

/-- The `execcmd` gets its arguments below the redirections. -/
theorem addArg_wrap {W : Type u} (rs : List (Redir W)) (ws : List W) (w : W) :
    (wrap rs (.exec ws)).addArg w = wrap rs (.exec (ws ++ [w])) := by
  induction rs using reverseRecOn with
  | nil => rfl
  | append_singleton rs r ih =>
    rw [wrap_append, wrap_append, ← ih]
    rfl

theorem parseargsEnd_ok {ret : Cmd Word} {argc : Nat} (h : argc ≤ MAXARGS - 1) :
    parseargsEnd ret argc s = .ok (ret, s) :=
  if_neg (Nat.not_le.mpr (Nat.lt_of_le_of_lt h (by decide)))

theorem parseargs_sound (rs : List (Redir Word)) (ws : List Word) (h : Lexes place s ts)
    (hfuel : ts.length < fuel) (hargc : ws.length ≤ MAXARGS - 1) :
    Ends (fun t rest => ∃ pre ws' rs', ts = pre ++ rest ∧ Args pre ws' rs' ∧
        (ws ++ ws').length ≤ MAXARGS - 1 ∧ t = wrap (rs ++ rs') (.exec (ws ++ ws')))
      (parseargs fuel (wrap rs (.exec ws)) ws.length s) := by
  induction fuel generalizing s ts ws rs with
  | zero => exact absurd hfuel (Nat.not_lt_zero _)
  | succ fuel ih =>
    have hend : ∀ {s ts}, Lexes place s ts → Ends (fun t rest => ∃ pre ws' rs',
        ts = pre ++ rest ∧ Args pre ws' rs' ∧ (ws ++ ws').length ≤ MAXARGS - 1 ∧
        t = wrap (rs ++ rs') (.exec (ws ++ ws')))
        (parseargsEnd (wrap rs (.exec ws)) ws.length s) := by
      intro s ts h
      rw [parseargsEnd_ok hargc]
      refine ⟨ts, h, [], [], [], rfl, .nil, ?_, ?_⟩
      · rwa [append_nil]
      · rw [append_nil, append_nil]
    rw [parseargs]
    dsimp only
    split
    case isTrue => exact hend (h.peek _)
    case isFalse =>
      have hlex := h.peek ['|', ')', '&', ';']
      generalize (peek s ['|', ')', '&', ';']).2 = s at hlex
      split
      case isTrue hzero =>
        cases ts with
        | nil =>
          rw [hlex.gettoken_nil.2]
          exact hend .nil
        | cons t ts => exact absurd (hlex.gettoken_cons.1.symm.trans hzero) t.code_ne_nul
      case isFalse =>
        split
        case isTrue => exact trivial
        case isFalse hword =>
          have hlt : ¬ MAXARGS ≤ ws.length := Nat.not_le.mpr (Nat.lt_of_le_of_lt hargc (by decide))
          rw [if_neg hlt]
          split
          case isTrue => exact trivial
          case isFalse hmore =>
            obtain ⟨ts, rfl, hrest⟩ := hlex.gettoken_word (not_not.mp hword)
            rw [length_cons] at hfuel
            rw [addArg_wrap]
            generalize Word.mk (gettoken s).q (gettoken s).eq = w
            refine (parseredirs_sound _ hrest (by omega)).bind ?_
            rintro _ s rest hlex' ⟨pre, rs1, rfl, hredirs, rfl⟩
            rw [← wrap_append]
            have hlength : (ws ++ [w]).length = ws.length + 1 := length_append
            rw [length_append] at hfuel
            rw [← hlength]
            refine (ih _ _ hlex' (by omega) (by rw [hlength]; omega)).mono ?_
            rintro t rest ⟨pre', ws', rs', rfl, hargs, hlen, rfl⟩
            refine ⟨_, w :: ws', rs1 ++ rs', ?_, .cons w hredirs hargs, ?_, ?_⟩
            · rw [cons_append, append_assoc]
            · rwa [append_assoc] at hlen
            · rw [append_assoc, append_assoc]
              rfl

/-- A symbol is the only token of its kind. -/
theorem eq_of_among {c : Char} {t t' : Token Word} (hc : c ≠ '>') (ht : t.symbol = some c)
    (h : t'.among [c]) : t' = t := by
  cases t
  case word => cases ht
  all_goals
    obtain rfl := some.inj ht
    cases t' <;> first | rfl | exact absurd rfl hc | cases h

/-- The tokens that the tree was derived from come first. -/
def Read (nt : Nonterminal) (ts : List (Token Word)) (t : Cmd Word) (rest : List (Token Word)) :
    Prop :=
  ∃ pre, ts = pre ++ rest ∧ Derives nt pre t

/-- The four parsing functions with enough fuel for the tokens that are left. -/
structure Sound (fuel : Nat) : Prop where
  line : ∀ {s ts}, Lexes place s ts → 4 * ts.length + 3 < fuel →
    Ends (Read .line ts) (parseline fuel s)
  pipe : ∀ {s ts}, Lexes place s ts → 4 * ts.length + 2 < fuel →
    Ends (Read .pipe ts) (parsepipe fuel s)
  exec : ∀ {s ts}, Lexes place s ts → 4 * ts.length + 1 < fuel →
    Ends (Read .exec ts) (parseexec fuel s)
  block : ∀ {s ts}, Lexes place s ts → 4 * ts.length < fuel →
    Ends (Read .exec ts) (parseblock fuel s)

section

variable (h : Sound fuel) (hlex : Lexes place s ts)
include h hlex

theorem Sound.parseline (hfuel : 4 * ts.length + 3 < fuel + 1) :
    Ends (Read .line ts) (parseline (fuel + 1) s) := by
  refine (h.pipe hlex (by omega)).bind ?_
  rintro t s1 rest1 hlex1 ⟨pre, rfl, hpipe⟩
  rw [length_append] at hfuel
  refine (parsebacks_sound t hlex1 (by omega)).bind ?_
  rintro _ s2 rest2 hlex2 ⟨n, rfl, rfl⟩
  rw [length_append] at hfuel
  dsimp only
  split
  case isFalse => exact ⟨rest2, hlex2.peek _, _, (append_assoc _ _ _).symm, .last n hpipe⟩
  case isTrue hpeek =>
    obtain ⟨t', ts3, rfl, hamong, -, hlex3⟩ := hlex2.peek_true (by decide) hpeek
    obtain rfl := eq_of_among (by decide) (t := .semi) rfl hamong
    rw [length_cons] at hfuel
    refine (h.line hlex3 (by omega)).bind ?_
    rintro right s4 rest4 hlex4 ⟨pre', rfl, hline⟩
    refine ⟨rest4, hlex4, _, ?_, .line n hpipe hline⟩
    simp only [append_assoc, cons_append]

theorem Sound.parsepipe (hfuel : 4 * ts.length + 2 < fuel + 1) :
    Ends (Read .pipe ts) (parsepipe (fuel + 1) s) := by
  refine (h.exec hlex (by omega)).bind ?_
  rintro t s1 rest1 hlex1 ⟨pre, rfl, hexec⟩
  rw [length_append] at hfuel
  dsimp only
  split
  case isFalse => exact ⟨rest1, hlex1.peek _, pre, rfl, .exec hexec⟩
  case isTrue hpeek =>
    obtain ⟨t', ts2, rfl, hamong, -, hlex2⟩ := hlex1.peek_true (by decide) hpeek
    obtain rfl := eq_of_among (by decide) (t := .bar) rfl hamong
    rw [length_cons] at hfuel
    refine (h.pipe hlex2 (by omega)).bind ?_
    rintro right s3 rest3 hlex3 ⟨pre', rfl, hpipe⟩
    refine ⟨rest3, hlex3, _, ?_, .pipe hexec hpipe⟩
    simp only [append_assoc, cons_append]

theorem Sound.parseblock (hfuel : 4 * ts.length < fuel + 1) :
    Ends (Read .exec ts) (parseblock (fuel + 1) s) := by
  rw [Shell.parseblock]
  dsimp only
  split
  case isTrue => exact trivial
  case isFalse hopen =>
    rw [Bool.not_eq_true, Bool.not_eq_false'] at hopen
    obtain ⟨t', ts1, rfl, hamong, -, hlex1⟩ := hlex.peek_true (by decide) hopen
    obtain rfl := eq_of_among (by decide) (t := .lparen) rfl hamong
    rw [length_cons] at hfuel
    refine (h.line hlex1 (by omega)).bind ?_
    rintro t s2 rest2 hlex2 ⟨pre, rfl, hline⟩
    split
    case isTrue => exact trivial
    case isFalse hclose =>
      rw [Bool.not_eq_true, Bool.not_eq_false'] at hclose
      obtain ⟨t', ts3, rfl, hamong', -, hlex3⟩ := hlex2.peek_true (by decide) hclose
      obtain rfl := eq_of_among (by decide) (t := .rparen) rfl hamong'
      rw [length_append, length_cons] at hfuel
      refine (parseredirs_sound t hlex3 (by omega)).mono ?_
      rintro _ rest ⟨pre', rs, rfl, hredirs, rfl⟩
      refine ⟨_, ?_, .block hline hredirs⟩
      simp only [append_assoc, cons_append]

theorem Sound.parseexec (hfuel : 4 * ts.length + 1 < fuel + 1) :
    Ends (Read .exec ts) (parseexec (fuel + 1) s) := by
  rw [Shell.parseexec]
  dsimp only
  split
  case isTrue => exact h.block (hlex.peek _) (by omega)
  case isFalse =>
    refine (parseredirs_sound _ (hlex.peek _) (by omega)).bind ?_
    rintro _ s1 rest1 hlex1 ⟨pre, rs, rfl, hredirs, rfl⟩
    rw [length_append] at hfuel
    refine (parseargs_sound rs [] hlex1 (by omega) (by decide)).mono ?_
    rintro _ rest ⟨pre', ws, rs', rfl, hargs, hlength, rfl⟩
    exact ⟨_, (append_assoc _ _ _).symm, .args hredirs hargs hlength⟩

end

theorem sound (fuel : Nat) : Sound fuel := by
  induction fuel with
  | zero => exact ⟨nofun, nofun, nofun, nofun⟩
  | succ fuel ih => exact ⟨ih.parseline, ih.parsepipe, ih.parseexec, ih.parseblock⟩

/-! ## The parser finds every derivation -/

/-- The symbols that may follow in a line. -/
def follow : Nonterminal → List Char
  | .line => [')']
  | .pipe => [')', '&', ';']
  | .exec => ['|', ')', '&', ';']

/-- A nonterminal ends here: the line does, or one of the symbols that may follow it comes. -/
def Follows {W : Type u} (nt : Nonterminal) (rest : List (Token W)) : Prop :=
  ∀ t ∈ rest.head?, t.among (follow nt)

/-- The next token is none of these symbols. -/
def NoneOf {W : Type u} (toks : List Char) (ts : List (Token W)) : Prop :=
  ∀ t ∈ ts.head?, t.among toks = false

theorem Lexes.peek_cons {t : Token Word} (h : Lexes place s (t :: rest)) (htoks : toks ⊆ symbols)
    (ht : t.among toks) :
    (Shell.peek s toks).1 = true ∧ (gettoken (Shell.peek s toks).2).ret = t.code ∧
      Lexes place (gettoken (Shell.peek s toks).2).s rest := by
  obtain ⟨hret, hrest, -⟩ := (h.peek toks).gettoken_cons
  exact ⟨(h.peek_fst htoks).trans ht, hret, hrest⟩

theorem Lexes.peek_none (h : Lexes place s ts) (htoks : toks ⊆ symbols) (hts : NoneOf toks ts) :
    (Shell.peek s toks).1 = false := by
  rw [h.peek_fst htoks]
  cases ts with
  | nil => rfl
  | cons t ts => exact hts t rfl

theorem RedirKind.among (kind : RedirKind) : (kind.token : Token Word).among ['<', '>'] := by
  cases kind <;> rfl

theorem exists_fuel {m fuel : Nat} (hfuel : m < fuel) : ∃ rest, fuel = rest + 1 :=
  Nat.exists_eq_add_one.mpr (Nat.zero_lt_of_lt hfuel)

theorem parseredirs_complete (hredirs : Redirs pre rs) (cmd : Cmd Word)
    (h : Lexes place s (pre ++ rest)) (hrest : NoneOf ['<', '>'] rest) (hfuel : pre.length < fuel) :
    ∃ s', parseredirs fuel cmd s = .ok (wrap rs cmd, s') ∧ Lexes place s' rest := by
  induction hredirs generalizing cmd s fuel with
  | nil =>
    obtain ⟨fuel, rfl⟩ := exists_fuel hfuel
    rw [parseredirs]
    dsimp only
    rw [h.peek_none (by decide) hrest, if_neg Bool.false_ne_true]
    exact ⟨_, rfl, h.peek _⟩
  | cons r _ ih =>
    rw [length_cons, length_cons] at hfuel
    obtain ⟨fuel, rfl⟩ := exists_fuel hfuel
    obtain ⟨hpeek, hret, hlex⟩ := h.peek_cons (by decide) r.kind.among
    obtain ⟨hret', hlex', hword⟩ := hlex.gettoken_cons
    change _ = 'a' at hret'
    rw [parseredirs]
    dsimp only
    rw [hpeek, if_pos rfl, hret', hret, if_neg (not_not.mpr rfl), redircmd_code, ← hword _ rfl]
    exact ih _ hlex' (by omega)

theorem parsebacks_complete (n : Nat) (cmd : Cmd Word)
    (h : Lexes place s (replicate n .amp ++ rest)) (hrest : NoneOf ['&'] rest)
    (hfuel : n < fuel) :
    ∃ s', parsebacks fuel cmd s = .ok (backs n cmd, s') ∧ Lexes place s' rest := by
  induction n generalizing cmd s fuel with
  | zero =>
    obtain ⟨fuel, rfl⟩ := exists_fuel hfuel
    rw [parsebacks]
    dsimp only
    rw [Lexes.peek_none h (by decide) hrest, if_neg Bool.false_ne_true]
    exact ⟨_, rfl, h.peek _⟩
  | succ n ih =>
    obtain ⟨fuel, rfl⟩ := exists_fuel hfuel
    have hamp : (Token.amp : Token Word).among ['&'] := rfl
    obtain ⟨hpeek, -, hlex⟩ := h.peek_cons (by decide) hamp
    rw [parsebacks]
    dsimp only
    rw [hpeek, if_pos rfl, ← backs_succ]
    exact ih _ hlex (by omega)

theorem Follows.noneOf {W : Type u} {rest : List (Token W)} (h : Follows nt rest)
    (hdisjoint : ∀ t : Token W, t.among (follow nt) → t.among toks = false) :
    NoneOf toks rest :=
  fun t ht => hdisjoint t (h t ht)

/-- After the redirections comes a word or the end of the arguments. -/
theorem Args.noneOf {ts : List (Token Word)} (h : Args ts ws rs) (hrest : NoneOf toks rest) :
    NoneOf toks (ts ++ rest) := by
  cases h with
  | nil => exact hrest
  | cons w =>
    rintro _ ⟨⟩
    rfl

theorem Follows.no_redir (h : Follows .exec rest) : NoneOf ['<', '>'] rest := by
  refine h.noneOf fun t => ?_
  cases t <;> first | exact fun _ => rfl | exact nofun

theorem parseargs_complete {ws' : List Word} {rs' : List (Redir Word)} (hargs : Args pre ws' rs')
    (ws : List Word) (rs : List (Redir Word)) (h : Lexes place s (pre ++ rest))
    (hrest : Follows .exec rest) (hlength : ws.length + ws'.length ≤ MAXARGS - 1)
    (hfuel : pre.length < fuel) :
    ∃ s', parseargs fuel (wrap rs (.exec ws)) ws.length s =
      .ok (wrap (rs ++ rs') (.exec (ws ++ ws')), s') ∧ Lexes place s' rest := by
  induction hargs generalizing ws rs s fuel with
  | nil =>
    obtain ⟨fuel, rfl⟩ := exists_fuel hfuel
    have hargc : ws.length ≤ MAXARGS - 1 := hlength
    rw [parseargs, append_nil, append_nil]
    dsimp only
    cases hhead : rest with
    | nil =>
      rw [hhead] at h
      rw [h.peek_none (by decide) nofun, if_neg Bool.false_ne_true,
        if_pos (h.peek _).gettoken_nil.1, parseargsEnd_ok hargc]
      refine ⟨_, rfl, ?_⟩
      rw [(h.peek _).gettoken_nil.2]
      exact .nil
    | cons t ts =>
      rw [hhead] at h hrest
      have hamong : t.among ['|', ')', '&', ';'] := hrest t rfl
      rw [(h.peek_cons (by decide) hamong).1, if_pos rfl, parseargsEnd_ok hargc]
      exact ⟨_, rfl, h.peek _⟩
  | @cons w ts ts' ws' rs1 rs' hredirs hargs ih =>
    rw [length_cons] at hfuel hlength
    rw [length_append] at hfuel
    obtain ⟨fuel, rfl⟩ := exists_fuel hfuel
    have hnone : NoneOf ['|', ')', '&', ';'] (.word w :: (ts ++ ts') ++ rest) := by
      rintro _ ⟨⟩
      rfl
    obtain ⟨hret, hlex, hword⟩ := (h.peek ['|', ')', '&', ';']).gettoken_cons
    change _ = 'a' at hret
    rw [parseargs]
    dsimp only
    rw [h.peek_none (by decide) hnone, if_neg Bool.false_ne_true, hret,
      if_neg (show ¬ 'a' = '\x00' by decide), if_neg (not_not.mpr rfl), if_neg (by omega),
      if_neg (by omega), ← hword _ rfl, addArg_wrap]
    change Lexes place _ ((ts ++ ts') ++ rest) at hlex
    rw [append_assoc] at hlex
    have hredir : ts.length < fuel := by omega
    obtain ⟨s1, hparse, hlex1⟩ := parseredirs_complete hredirs (wrap rs (.exec (ws ++ [w])))
      hlex (hargs.noneOf hrest.no_redir) hredir
    have hnext : (ws ++ [w]).length = ws.length + 1 := length_append
    have hcons : ws ++ w :: ws' = ws ++ [w] ++ ws' := append_cons ws w ws'
    rw [hparse, ← wrap_append, ← hnext, hcons, ← append_assoc]
    have harg : ts'.length < fuel := by omega
    exact ih (ws ++ [w]) (rs ++ rs1) hlex1 (by omega) harg

/-- The parsing function of a nonterminal. -/
def parser : Nonterminal → Nat → List Char → Except Stop (Cmd Word × List Char)
  | .line => parseline
  | .pipe => parsepipe
  | .exec => parseexec

/-- The fuel it needs for so many tokens. -/
def need : Nonterminal → Nat → Nat
  | .line, n => 4 * n + 3
  | .pipe, n => 4 * n + 2
  | .exec, n => 4 * n + 1

/-- A derivation from the tokens that come first is found. -/
def Finds (nt : Nonterminal) (pre : List (Token Word)) (t : Cmd Word) : Prop :=
  ∀ {s : List Char} {rest : List (Token Word)} {fuel : Nat}, Lexes place s (pre ++ rest) →
    Follows nt rest → need nt (pre ++ rest).length < fuel →
    ∃ s', parser nt fuel s = .ok (t, s') ∧ Lexes place s' rest

theorem finds_args {ts : List (Token Word)} {ws : List Word} {rs rs' : List (Redir Word)}
    (hredirs : Redirs ts rs) (hargs : Args ts' ws rs') (hlength : ws.length ≤ MAXARGS - 1) :
    Finds .exec (ts ++ ts') (wrap (rs ++ rs') (.exec ws)) := by
  intro s rest fuel h hrest hfuel
  obtain ⟨fuel, rfl⟩ := exists_fuel hfuel
  rw [need, length_append, length_append] at hfuel
  rw [append_assoc] at h
  have hopen : NoneOf ['('] (ts ++ (ts' ++ rest)) := by
    cases hredirs with
    | nil =>
      refine hargs.noneOf (hrest.noneOf fun t => ?_)
      cases t <;> first | exact fun _ => rfl | exact nofun
    | cons r =>
      rintro _ ⟨⟩
      cases r.kind <;> rfl
  rw [parser, parseexec]
  dsimp only
  rw [h.peek_none (by decide) hopen, if_neg Bool.false_ne_true]
  have hredir : ts.length < fuel := by omega
  obtain ⟨s1, hparse, hlex1⟩ := parseredirs_complete hredirs (.exec []) (h.peek _)
    (hargs.noneOf hrest.no_redir) hredir
  rw [hparse]
  have harg : ts'.length < fuel := by omega
  exact parseargs_complete hargs [] rs hlex1 hrest (by rwa [length_nil, Nat.zero_add]) harg

theorem finds_block {ts : List (Token Word)} {t : Cmd Word} {rs : List (Redir Word)}
    (hline : Finds .line ts t) (hredirs : Redirs ts' rs) :
    Finds .exec (.lparen :: (ts ++ .rparen :: ts')) (wrap rs t) := by
  intro s rest fuel h hrest hfuel
  rw [need, length_append, length_cons, length_append, length_cons] at hfuel
  obtain ⟨fuel, rfl⟩ : ∃ n, fuel = n + 2 := ⟨fuel - 2, by omega⟩
  have hlparen : (Token.lparen : Token Word).among ['('] := rfl
  have hrparen : (Token.rparen : Token Word).among [')'] := rfl
  rw [cons_append, append_assoc, cons_append] at h
  rw [parser, parseexec]
  dsimp only
  rw [(h.peek_cons (by decide) hlparen).1, if_pos rfl, parseblock]
  dsimp only
  obtain ⟨hpeek, -, hlex⟩ := (h.peek _).peek_cons (by decide) hlparen
  rw [hpeek, Bool.not_true, if_neg Bool.false_ne_true]
  have hfollow : Follows .line (.rparen :: (ts' ++ rest)) := by
    rintro _ ⟨⟩
    rfl
  have hneed : need .line (ts ++ .rparen :: (ts' ++ rest)).length < fuel := by
    rw [need, length_append, length_cons, length_append]
    omega
  obtain ⟨s1, hparse, hlex1⟩ := hline hlex hfollow hneed
  obtain ⟨hpeek1, -, hlex2⟩ := hlex1.peek_cons (by decide) hrparen
  change parseline fuel _ = _ at hparse
  rw [hparse]
  dsimp only [bind, Except.bind]
  rw [hpeek1, Bool.not_true, if_neg Bool.false_ne_true]
  have hredir : ts'.length < fuel := by omega
  exact parseredirs_complete hredirs t hlex2 hrest.no_redir hredir

theorem Follows.mono {nt' : Nonterminal} (h : Follows nt rest) (hsub : follow nt ⊆ follow nt') :
    Follows nt' rest := by
  intro t ht
  have hamong := h t ht
  rw [Token.among, Option.any_eq_true] at hamong ⊢
  obtain ⟨c, hc, hin⟩ := hamong
  exact ⟨c, hc, contains_iff_mem.mpr (hsub (contains_iff_mem.mp hin))⟩

theorem finds_exec {ts : List (Token Word)} {t : Cmd Word} (hexec : Finds .exec ts t) :
    Finds .pipe ts t := by
  intro s rest fuel h hrest hfuel
  obtain ⟨fuel, rfl⟩ := exists_fuel hfuel
  have hneed : need .exec (ts ++ rest).length < fuel := by
    simp only [need] at hfuel ⊢
    omega
  have hbar : NoneOf ['|'] rest := hrest.noneOf fun t => by
    cases t <;> first | exact fun _ => rfl | exact nofun
  obtain ⟨s1, hparse, hlex1⟩ := hexec h (hrest.mono (by decide)) hneed
  change parseexec fuel s = _ at hparse
  rw [parser, parsepipe, hparse]
  dsimp only [bind, Except.bind]
  rw [hlex1.peek_none (by decide) hbar, if_neg Bool.false_ne_true]
  exact ⟨_, rfl, hlex1.peek _⟩

theorem finds_pipe {ts : List (Token Word)} {t t' : Cmd Word} (hexec : Finds .exec ts t)
    (hpipe : Finds .pipe ts' t') : Finds .pipe (ts ++ .bar :: ts') (.pipe t t') := by
  intro s rest fuel h hrest hfuel
  obtain ⟨fuel, rfl⟩ := exists_fuel hfuel
  rw [append_assoc, cons_append] at h hfuel
  have hneed : need .exec (ts ++ .bar :: (ts' ++ rest)).length < fuel := by
    simp only [need] at hfuel ⊢
    omega
  have hneed' : need .pipe (ts' ++ rest).length < fuel := by
    rw [need, length_append, length_cons] at hfuel
    rw [need]
    omega
  have hfollow : Follows .exec (.bar :: (ts' ++ rest)) := by
    rintro _ ⟨⟩
    rfl
  have hbar : (Token.bar : Token Word).among ['|'] := rfl
  obtain ⟨s1, hparse, hlex1⟩ := hexec h hfollow hneed
  obtain ⟨hpeek, -, hlex2⟩ := hlex1.peek_cons (by decide) hbar
  obtain ⟨s2, hparse2, hlex3⟩ := hpipe hlex2 hrest hneed'
  change parseexec fuel s = _ at hparse
  change parsepipe fuel _ = _ at hparse2
  rw [parser, parsepipe, hparse]
  dsimp only [bind, Except.bind]
  rw [hpeek, if_pos rfl, hparse2]
  exact ⟨s2, rfl, hlex3⟩

/-- The first steps of `parseline`. -/
theorem parseline_backs {ts : List (Token Word)} {t : Cmd Word} {n : Nat}
    (hpipe : Finds .pipe ts t) (h : Lexes place s (ts ++ (replicate n Token.amp ++ rest)))
    (hrest : NoneOf ['&'] rest) (hfollow : Follows .pipe rest)
    (hfuel : need .line (ts ++ (replicate n Token.amp ++ rest)).length < fuel + 1) :
    ∃ s1 s2, parsepipe fuel s = .ok (t, s1) ∧ parsebacks fuel t s1 = .ok (backs n t, s2) ∧
      Lexes place s2 rest := by
  have hneed : need .pipe (ts ++ (replicate n Token.amp ++ rest)).length < fuel := by
    simp only [need] at hfuel ⊢
    omega
  have hamps : n < fuel := by
    rw [need, length_append, length_append, length_replicate] at hfuel
    omega
  have hfollow' : Follows .pipe (replicate n .amp ++ rest) := by
    cases n with
    | zero => exact hfollow
    | succ n =>
      rintro _ ⟨⟩
      rfl
  obtain ⟨s1, hparse, hlex1⟩ := hpipe h hfollow' hneed
  obtain ⟨s2, hparse2, hlex2⟩ := parsebacks_complete n t hlex1 hrest hamps
  exact ⟨s1, s2, hparse, hparse2, hlex2⟩

theorem finds_last (n : Nat) {ts : List (Token Word)} {t : Cmd Word} (hpipe : Finds .pipe ts t) :
    Finds .line (ts ++ replicate n .amp) (backs n t) := by
  intro s rest fuel h hrest hfuel
  obtain ⟨fuel, rfl⟩ := exists_fuel hfuel
  rw [append_assoc] at h hfuel
  have hamp : NoneOf ['&'] rest := hrest.noneOf fun t => by
    cases t <;> first | exact fun _ => rfl | exact nofun
  have hsemi : NoneOf [';'] rest := hrest.noneOf fun t => by
    cases t <;> first | exact fun _ => rfl | exact nofun
  obtain ⟨s1, s2, hparse, hparse2, hlex2⟩ :=
    parseline_backs hpipe h hamp (hrest.mono (by decide)) hfuel
  rw [parser, parseline, hparse]
  dsimp only [bind, Except.bind]
  rw [hparse2]
  dsimp only
  rw [hlex2.peek_none (by decide) hsemi, if_neg Bool.false_ne_true]
  exact ⟨_, rfl, hlex2.peek _⟩

theorem finds_line (n : Nat) {ts : List (Token Word)} {t t' : Cmd Word} (hpipe : Finds .pipe ts t)
    (hline : Finds .line ts' t') :
    Finds .line (ts ++ (replicate n .amp ++ .semi :: ts')) (.list (backs n t) t') := by
  intro s rest fuel h hrest hfuel
  obtain ⟨fuel, rfl⟩ := exists_fuel hfuel
  rw [append_assoc, append_assoc, cons_append] at h hfuel
  have hamp : NoneOf ['&'] (.semi :: (ts' ++ rest)) := by
    rintro _ ⟨⟩
    rfl
  have hfollow : Follows .pipe (.semi :: (ts' ++ rest)) := by
    rintro _ ⟨⟩
    rfl
  have hneed : need .line (ts' ++ rest).length < fuel := by
    rw [need, length_append, length_append, length_cons] at hfuel
    rw [need]
    omega
  have hsemi : (Token.semi : Token Word).among [';'] := rfl
  obtain ⟨s1, s2, hparse, hparse2, hlex2⟩ := parseline_backs hpipe h hamp hfollow hfuel
  obtain ⟨hpeek, -, hlex3⟩ := hlex2.peek_cons (by decide) hsemi
  obtain ⟨s4, hparse4, hlex4⟩ := hline hlex3 hrest hneed
  change parseline fuel _ = _ at hparse4
  rw [parser, parseline, hparse]
  dsimp only [bind, Except.bind]
  rw [hparse2]
  dsimp only
  rw [hpeek, if_pos rfl, hparse4]
  exact ⟨s4, rfl, hlex4⟩

/-- The parser returns the tree of every derivation. -/
theorem Derives.finds (h : Derives nt pre t) : Finds nt pre t := by
  induction h with
  | args hredirs hargs hlength => exact finds_args hredirs hargs hlength
  | block _ hredirs ih => exact finds_block ih hredirs
  | exec _ ih => exact finds_exec ih
  | pipe _ _ ih ih' => exact finds_pipe ih ih'
  | last n _ ih => exact finds_last n ih
  | line n _ _ ih ih' => exact finds_line n ih ih'

end EAFITos.Shell
