/-
The trees that `parsecmd` returns: their words as they stand in the buffer after `nulterminate`,
and their printed form, which parses to the same tree.
-/
import EAFITos.ShellGrammar

universe u v

namespace EAFITos.Shell

open List

variable {W : Type u} {V : Type v}

variable {ts : List (Token W)} {t : Cmd W} {buf s : List Char} {rs : List (Redir W)} {f : W → V}
  {nt : Nonterminal} {i len : Nat} {w : Word} {ws : List W} {ts' : List (Token V)}

/-! ## Derivations over words named in another way -/

def Redir.map (f : W → V) (r : Redir W) : Redir V := ⟨r.kind, f r.file⟩

theorem map_wrap (f : W → V) (rs : List (Redir W)) (t : Cmd W) :
    (wrap rs t).map f = wrap (rs.map (Redir.map f)) (t.map f) := by
  induction rs generalizing t with
  | nil => rfl
  | cons r rs ih => exact ih _

theorem map_backs (f : W → V) (n : Nat) (t : Cmd W) : (backs n t).map f = backs n (t.map f) := by
  induction n with
  | zero => rfl
  | succ n ih => exact congrArg Cmd.back ih

theorem RedirKind.map_token (f : W → V) (kind : RedirKind) :
    (kind.token : Token W).map f = kind.token := by
  cases kind <;> rfl

theorem Redirs.map (f : W → V) (h : Redirs ts rs) :
    Redirs (ts.map (Token.map f)) (rs.map (Redir.map f)) := by
  induction h with
  | nil => exact .nil
  | cons r _ ih =>
    rw [map_cons, map_cons, map_cons, RedirKind.map_token]
    exact .cons (r.map f) ih

theorem Args.map (f : W → V) (h : Args ts ws rs) :
    Args (ts.map (Token.map f)) (ws.map f) (rs.map (Redir.map f)) := by
  induction h with
  | nil => exact .nil
  | cons w hredirs _ ih =>
    rw [map_cons, map_append, map_cons, map_append]
    exact .cons (f w) (hredirs.map f) ih

theorem Derives.map (f : W → V) (h : Derives nt ts t) :
    Derives nt (ts.map (Token.map f)) (t.map f) := by
  induction h with
  | args hredirs hargs hlength =>
    rw [map_append, map_wrap, map_append]
    exact .args (hredirs.map f) (hargs.map f) (by rwa [length_map])
  | block _ hredirs ih =>
    rw [map_cons, map_append, map_cons, map_wrap]
    exact .block ih (hredirs.map f)
  | exec _ ih => exact .exec ih
  | pipe _ _ ih ih' =>
    rw [map_append, map_cons]
    exact .pipe ih ih'
  | last n _ ih =>
    rw [map_append, map_replicate, map_backs]
    exact .last n ih
  | line n _ _ ih ih' =>
    rw [map_append, map_append, map_replicate, map_cons, Cmd.map, map_backs]
    exact .line n ih ih'

theorem Token.eq_word_of_map {x : Token W} {v : V} (h : x.map f = .word v) :
    ∃ w, x = .word w ∧ f w = v := by
  cases x <;> cases h
  exact ⟨_, rfl, rfl⟩

/-- A token that is no word is named in one way only. -/
theorem Token.eq_of_map {x t : Token W} {c : Char} (ht : t.symbol = some c)
    (h : x.map f = t.map f) : x = t := by
  cases t <;> cases ht <;> cases x <;> first | rfl | cases h

theorem Redirs.exists_map {rs' : List (Redir V)} (h : Redirs ts' rs')
    (hts : ts.map (Token.map f) = ts') :
    ∃ rs, Redirs ts rs ∧ rs' = rs.map (Redir.map f) := by
  induction h generalizing ts with
  | nil =>
    rw [map_eq_nil_iff.mp hts]
    exact ⟨[], .nil, rfl⟩
  | cons r _ ih =>
    obtain ⟨x, ts1, rfl, hx, hrest⟩ := map_eq_cons_iff.mp hts
    obtain ⟨y, ts2, rfl, hy, hrest2⟩ := map_eq_cons_iff.mp hrest
    obtain ⟨w, rfl, hw⟩ := Token.eq_word_of_map hy
    obtain ⟨rs, hredirs, rfl⟩ := ih hrest2
    rw [← RedirKind.map_token f] at hx
    have hsymbol : ∃ c, (r.kind.token : Token W).symbol = some c := by
      cases r.kind <;> exact ⟨_, rfl⟩
    obtain rfl := Token.eq_of_map hsymbol.choose_spec hx
    refine ⟨⟨r.kind, w⟩ :: rs, .cons ⟨r.kind, w⟩ hredirs, ?_⟩
    rw [map_cons, Redir.map, hw]

theorem Args.exists_map {ws' : List V} {rs' : List (Redir V)} (h : Args ts' ws' rs')
    (hts : ts.map (Token.map f) = ts') :
    ∃ ws rs, Args ts ws rs ∧ ws' = ws.map f ∧ rs' = rs.map (Redir.map f) := by
  induction h generalizing ts with
  | nil =>
    rw [map_eq_nil_iff.mp hts]
    exact ⟨[], [], .nil, rfl, rfl⟩
  | cons v hredirs _ ih =>
    obtain ⟨x, ts1, rfl, hx, hrest⟩ := map_eq_cons_iff.mp hts
    obtain ⟨w, rfl, hw⟩ := Token.eq_word_of_map hx
    obtain ⟨ts2, ts3, rfl, h2, h3⟩ := map_eq_append_iff.mp hrest
    obtain ⟨rs, hredirs', rfl⟩ := hredirs.exists_map h2
    obtain ⟨ws, rs', hargs, rfl, rfl⟩ := ih h3
    refine ⟨w :: ws, rs ++ rs', .cons w hredirs' hargs, ?_, ?_⟩
    · rw [map_cons, hw]
    · rw [map_append]

theorem amps_of_map {n : Nat} (h : ts.map (Token.map f) = List.replicate n .amp) :
    ts = List.replicate n .amp := by
  obtain ⟨hlength, hall⟩ := eq_replicate_iff.mp h
  rw [length_map] at hlength
  refine eq_replicate_iff.mpr ⟨hlength, fun x hx => ?_⟩
  exact Token.eq_of_map (t := .amp) rfl (hall _ (mem_map_of_mem hx))

theorem Derives.exists_map {t' : Cmd V} (h : Derives nt ts' t') (hts : ts.map (Token.map f) = ts') :
    ∃ t, Derives nt ts t ∧ t' = t.map f := by
  induction h generalizing ts with
  | args hredirs hargs hlength =>
    obtain ⟨ts1, ts2, rfl, h1, h2⟩ := map_eq_append_iff.mp hts
    obtain ⟨rs, hredirs', rfl⟩ := hredirs.exists_map h1
    obtain ⟨ws, rs', hargs', rfl, rfl⟩ := hargs.exists_map h2
    rw [length_map] at hlength
    refine ⟨_, .args hredirs' hargs' hlength, ?_⟩
    rw [map_wrap, map_append]
    rfl
  | block _ hredirs ih =>
    obtain ⟨x, ts1, rfl, hx, hrest⟩ := map_eq_cons_iff.mp hts
    obtain rfl := Token.eq_of_map (t := .lparen) rfl hx
    obtain ⟨ts2, ts3, rfl, h2, h3⟩ := map_eq_append_iff.mp hrest
    obtain ⟨y, ts4, rfl, hy, h4⟩ := map_eq_cons_iff.mp h3
    obtain rfl := Token.eq_of_map (t := .rparen) rfl hy
    obtain ⟨t, hline, rfl⟩ := ih h2
    obtain ⟨rs, hredirs', rfl⟩ := hredirs.exists_map h4
    exact ⟨_, .block hline hredirs', (map_wrap f rs t).symm⟩
  | exec _ ih =>
    obtain ⟨t, hexec, rfl⟩ := ih hts
    exact ⟨t, .exec hexec, rfl⟩
  | pipe _ _ ih ih' =>
    obtain ⟨ts1, ts2, rfl, h1, h2⟩ := map_eq_append_iff.mp hts
    obtain ⟨x, ts3, rfl, hx, h3⟩ := map_eq_cons_iff.mp h2
    obtain rfl := Token.eq_of_map (t := .bar) rfl hx
    obtain ⟨t, hexec, rfl⟩ := ih h1
    obtain ⟨t', hpipe, rfl⟩ := ih' h3
    exact ⟨_, .pipe hexec hpipe, rfl⟩
  | last n _ ih =>
    obtain ⟨ts1, ts2, rfl, h1, h2⟩ := map_eq_append_iff.mp hts
    obtain ⟨t, hpipe, rfl⟩ := ih h1
    obtain rfl := amps_of_map h2
    exact ⟨_, .last n hpipe, (map_backs f n t).symm⟩
  | line n _ _ ih ih' =>
    obtain ⟨ts1, ts2, rfl, h1, h2⟩ := map_eq_append_iff.mp hts
    obtain ⟨ts3, ts4, rfl, h3, h4⟩ := map_eq_append_iff.mp h2
    obtain ⟨x, ts5, rfl, hx, h5⟩ := map_eq_cons_iff.mp h4
    obtain rfl := Token.eq_of_map (t := .semi) rfl hx
    obtain rfl := amps_of_map h3
    obtain ⟨t, hpipe, rfl⟩ := ih h1
    obtain ⟨t', hline, rfl⟩ := ih' h5
    refine ⟨_, .line n hpipe hline, ?_⟩
    rw [Cmd.map, map_backs]

/-! ## The words in the buffer -/

/-- The words of a list of tokens. -/
def tokenWords : List (Token W) → List W
  | [] => []
  | .word w :: ts => w :: tokenWords ts
  | _ :: ts => tokenWords ts

theorem tokenWords_symbol {t : Token W} {c : Char} (ht : t.symbol = some c) (ts : List (Token W)) :
    tokenWords (t :: ts) = tokenWords ts := by
  cases t
  case word => cases ht
  all_goals rfl

theorem tokenWords_append (ts ts' : List (Token W)) :
    tokenWords (ts ++ ts') = tokenWords ts ++ tokenWords ts' := by
  induction ts with
  | nil => rfl
  | cons t ts ih =>
    cases t
    case word w => exact congrArg (w :: ·) ih
    all_goals exact ih

theorem tokenWords_amps (n : Nat) : tokenWords (List.replicate n (.amp : Token W)) = [] := by
  induction n with
  | zero => rfl
  | succ n ih => exact ih

theorem words_wrap (rs : List (Redir W)) (t : Cmd W) :
    (wrap rs t).words = t.words ++ rs.map Redir.file := by
  induction rs generalizing t with
  | nil => exact (append_nil _).symm
  | cons r rs ih =>
    refine (ih _).trans ?_
    rw [Cmd.words, append_assoc]
    rfl

theorem words_backs (n : Nat) (t : Cmd W) : (backs n t).words = t.words := by
  induction n with
  | zero => rfl
  | succ n ih => exact ih

theorem Redirs.words (h : Redirs ts rs) :
    tokenWords ts = rs.map Redir.file := by
  induction h with
  | nil => rfl
  | cons r _ ih =>
    rw [map_cons, ← ih]
    cases r.kind <;> rfl

theorem Args.words (h : Args ts ws rs) :
    ws ++ rs.map Redir.file ⊆ tokenWords ts := by
  induction h with
  | nil => exact nofun
  | cons w hredirs _ ih =>
    rw [tokenWords, tokenWords_append, hredirs.words, map_append]
    intro x hx
    have hrest := @ih x
    simp only [mem_cons, mem_append] at hx hrest ⊢
    tauto

theorem Derives.words (h : Derives nt ts t) :
    t.words ⊆ tokenWords ts := by
  induction h with
  | args hredirs hargs _ =>
    rw [words_wrap, tokenWords_append, hredirs.words, map_append, Cmd.words]
    intro x hx
    have hrest := fun h => hargs.words (a := x) h
    simp only [mem_append] at hx hrest ⊢
    tauto
  | block _ hredirs ih =>
    rw [words_wrap, tokenWords_symbol rfl, tokenWords_append, tokenWords_symbol rfl, hredirs.words]
    exact append_subset.mpr ⟨subset_append_of_subset_left _ ih, subset_append_right _ _⟩
  | exec _ ih => exact ih
  | pipe _ _ ih ih' =>
    rw [Cmd.words, tokenWords_append, tokenWords_symbol rfl]
    exact append_subset.mpr ⟨subset_append_of_subset_left _ ih, subset_append_of_subset_right _ ih'⟩
  | last n _ ih =>
    rw [words_backs, tokenWords_append, tokenWords_amps, append_nil]
    exact ih
  | line n _ _ ih ih' =>
    rw [Cmd.words, words_backs, tokenWords_append, tokenWords_append, tokenWords_amps,
      nil_append, tokenWords_symbol rfl]
    exact append_subset.mpr ⟨subset_append_of_subset_left _ ih, subset_append_of_subset_right _ ih'⟩

/-- The text of a word: what is between its ends. -/
def Word.text (w : Word) : List Char := w.q.take (w.q.length - w.eq.length)

@[simp] theorem text_place (w s : List Char) : (place w s).text = w := by
  simp [Word.text, place]

/-- A word of the line. -/
structure Placed (line : List Char) (w : Word) : Prop where
  eq_place : w = place w.text w.eq
  suffix : w.q <:+ line
  chars : ∀ c ∈ w.text, WordChar c
  ends : WordEnds w.eq

theorem Lexes.placed {line : List Char} {ts : List (Token Word)} (h : Lexes place s ts)
    (hs : s <:+ line) : ∀ w ∈ tokenWords ts, Placed line w := by
  induction h with
  | nil => exact nofun
  | space _ _ ih => exact ih ((suffix_cons _ _).trans hs)
  | single t ht _ _ ih =>
    have hrest := ih ((suffix_cons _ _).trans hs)
    cases t
    case word => cases ht
    all_goals exact hrest
  | great _ _ ih => exact ih ((suffix_cons _ _).trans hs)
  | append _ ih => exact ih (((suffix_cons _ _).trans (suffix_cons _ _)).trans hs)
  | word w hne hw hends _ ih =>
    rintro x (_ | ⟨_, hx⟩)
    · refine ⟨?_, hs, ?_, hends⟩
      · rw [text_place]
        rfl
      · rwa [text_place]
    · exact ih ((suffix_append _ _).trans hs) x hx

/-- Write a NUL at the end of each word. -/
def nulEnds (len : Nat) (ws : List Word) (buf : List Char) : List Char :=
  ws.foldl (fun buf w => buf.set (len - w.eq.length) '\x00') buf

theorem nulterminate_eq (len : Nat) (t : Cmd Word) (buf : List Char) :
    nulterminate len t buf = nulEnds len t.words buf := by
  induction t generalizing buf with
  | exec argv => rfl
  | redir cmd file mode fd ih =>
    rw [nulterminate, ih, Cmd.words, nulEnds, nulEnds, foldl_append]
    rfl
  | pipe left right ihl ihr | list left right ihl ihr =>
    rw [nulterminate, ihl, ihr, Cmd.words, nulEnds, nulEnds, nulEnds, foldl_append]
  | back cmd ih => exact ih buf

theorem nulEnds_other {ws : List Word} (buf : List Char) (hi : ∀ w ∈ ws, len - w.eq.length ≠ i) :
    (nulEnds len ws buf)[i]? = buf[i]? := by
  induction ws generalizing buf with
  | nil => rfl
  | cons w ws ih =>
    refine (ih _ fun v hv => hi v (mem_cons_of_mem w hv)).trans ?_
    exact getElem?_set_ne (hi w mem_cons_self)

theorem nulEnds_nul {ws : List Word} (hbuf : ∀ c ∈ buf[i]?, c = '\x00') :
    ∀ c ∈ (nulEnds len ws buf)[i]?, c = '\x00' := by
  induction ws generalizing buf with
  | nil => exact hbuf
  | cons w ws ih =>
    refine ih fun c hc => ?_
    rw [getElem?_set] at hc
    split at hc
    · split at hc
      · exact (Option.some.inj hc).symm
      · cases hc
    · exact hbuf c hc

theorem nulEnds_end {ws : List Word} (buf : List Char) (hw : w ∈ ws) :
    ∀ c ∈ (nulEnds len ws buf)[len - w.eq.length]?, c = '\x00' := by
  induction ws generalizing buf with
  | nil => cases hw
  | cons v ws ih =>
    rcases mem_cons.mp hw with rfl | hw
    · change ∀ c ∈ (nulEnds len ws (buf.set _ _))[_]?, c = '\x00'
      refine nulEnds_nul fun c hc => ?_
      rw [getElem?_set_self'] at hc
      obtain ⟨_, _, rfl⟩ := Option.map_eq_some_iff.mp hc
      rfl
    · exact ih _ hw

/-- A string that is followed by a NUL or the end of the buffer. -/
theorem cString_eq {text : List Char} (hnul : '\x00' ∉ text)
    (htext : ∀ i < text.length, buf[i]? = text[i]?) (hend : ∀ c ∈ buf[text.length]?, c = '\x00') :
    cString buf = text := by
  induction text generalizing buf with
  | nil =>
    cases buf with
    | nil => rfl
    | cons c buf =>
      have hc : c = '\x00' := hend c rfl
      rw [cString, takeWhile_cons, hc]
      rfl
  | cons c text ih =>
    cases buf with
    | nil =>
      have hfirst := htext 0 (Nat.zero_lt_succ _)
      cases hfirst
    | cons d buf =>
      have hfirst : d = c := Option.some.inj (htext 0 (Nat.zero_lt_succ _))
      have hc : c ≠ '\x00' := fun heq => hnul (heq ▸ mem_cons_self)
      subst hfirst
      rw [cString, takeWhile_cons, if_pos (decide_eq_true hc)]
      refine congrArg (d :: ·) (ih (fun hin => hnul (mem_cons_of_mem d hin)) ?_ hend)
      intro i hi
      exact htext (i + 1) (Nat.succ_lt_succ hi)

/-- A word begins after some part of the line. -/
theorem Placed.split {line : List Char} (h : Placed line w) :
    ∃ a, line = a ++ (w.text ++ w.eq) ∧ line.length - w.q.length = a.length ∧
      line.length - w.eq.length = a.length + w.text.length := by
  obtain ⟨a, ha⟩ := h.suffix
  have hq : w.q = w.text ++ w.eq := congrArg Word.q h.eq_place
  have hlength := congrArg List.length ha
  rw [hq] at ha hlength
  rw [length_append, length_append] at hlength
  refine ⟨a, ha.symm, ?_, ?_⟩
  · rw [hq, length_append]
    omega
  · omega

/-- No word ends inside another one. -/
theorem Placed.not_inside {input : List Char} {v : Word} (hv : Placed input v)
    (hw : Placed input w) {a : List Char} (ha : input = a ++ (w.text ++ w.eq))
    (hi : i < w.text.length) : input.length - v.eq.length ≠ a.length + i := by
  obtain ⟨b, hb, -, hend⟩ := hv.split
  intro heq
  have hdrop : input[a.length + i]? = v.eq.head? := by
    rw [← heq, hend, hb, ← append_assoc, ← length_append,
      getElem?_append_right le_rfl, Nat.sub_self, head?_eq_getElem?]
  rw [ha, getElem?_append_right (Nat.le_add_right _ _), Nat.add_sub_cancel_left,
    getElem?_append_left hi, getElem?_eq_getElem hi] at hdrop
  exact hv.ends _ hdrop.symm (hw.chars _ (getElem_mem hi))

theorem getElem?_cString (hi : i < (cString buf).length) :
    buf[i]? = (cString buf)[i]? := by
  obtain ⟨r, hr⟩ := takeWhile_prefix (fun c => decide (c ≠ '\x00')) (l := buf)
  conv_lhs => rw [← hr]
  exact getElem?_append_left hi

theorem cString_nulterminate {t : Cmd Word} (h : ∀ w ∈ t.words, Placed (cString buf) w)
    (hw : w ∈ t.words) :
    cString ((nulterminate (cString buf).length t buf).drop ((cString buf).length - w.q.length)) =
      w.text := by
  have hplaced := h w hw
  obtain ⟨a, ha, hstart, hend⟩ := hplaced.split
  rw [nulterminate_eq, hstart]
  refine cString_eq (fun hin => (hplaced.chars _ hin).1 rfl) (fun i hi => ?_) ?_
  · have hlt : a.length + i < (cString buf).length := by
      omega
    rw [getElem?_drop, nulEnds_other buf fun v hv => (h v hv).not_inside hplaced ha hi,
      getElem?_cString hlt, ha, getElem?_append_right (Nat.le_add_right _ _),
      Nat.add_sub_cancel_left, getElem?_append_left hi]
  · rw [getElem?_drop, ← hend]
    exact nulEnds_end buf hw

theorem Cmd.map_congr {g : W → V} (h : ∀ w ∈ t.words, f w = g w) :
    t.map f = t.map g := by
  induction t with
  | exec argv => exact congrArg Cmd.exec (map_congr_left h)
  | redir cmd file mode fd ih =>
    rw [Cmd.map, Cmd.map, ih fun w hw => h w (mem_append_left _ hw),
      h file (mem_append_right _ mem_cons_self)]
  | pipe left right ihl ihr | list left right ihl ihr =>
    rw [Cmd.map, Cmd.map, ihl fun w hw => h w (mem_append_left _ hw),
      ihr fun w hw => h w (mem_append_right _ hw)]
  | back cmd ih => exact congrArg Cmd.back (ih h)

/-! ## The result of `parsecmd` -/

theorem no_nul_cString (buf : List Char) : '\x00' ∉ cString buf := by
  intro hin
  have hne := mem_takeWhile_imp hin
  exact absurd rfl (of_decide_eq_true hne)

/-- Nothing is left of the line exactly when no token is. -/
theorem Lexes.skip_eq_nil {ts : List (Token Word)} (h : Lexes place s ts) :
    Shell.skip s = [] ↔ ts = [] := by
  obtain ⟨hlex, hat⟩ := h.skip
  constructor
  · intro hnil
    rw [hnil] at hlex
    exact length_eq_zero_iff.mp (Nat.le_zero.mp hlex.length_le)
  · rintro rfl
    generalize Shell.skip s = s at hlex hat
    cases hlex with
    | nil => rfl
    | space hc => exact absurd hc hat.not_space

theorem parse_of_parseline {t : Cmd Word}
    (hparse : parseline (4 * (cString buf).length + 4) (cString buf) = .ok (t, s))
    (hs : skip s = []) (hwords : ∀ w ∈ t.words, Placed (cString buf) w) :
    parse buf = .ok (t.map Word.text) := by
  rw [parse, parsecmd, hparse]
  dsimp only [bind, Except.bind, peek]
  rw [hs, if_neg (not_not.mpr rfl)]
  exact congrArg Except.ok (Cmd.map_congr fun w hw => cString_nulterminate hwords hw)

/-- A line with a derivation gives its tree. -/
theorem parse_of_derives {ts : List (Token Word)} {t : Cmd Word}
    (h : Lexes place (cString buf) ts) (hline : Derives .line ts t) :
    parse buf = .ok (t.map Word.text) := by
  have hlength := h.length_le
  have hneed : need .line (ts ++ []).length < 4 * (cString buf).length + 4 := by
    rw [append_nil, need]
    omega
  have hend : Follows .line ([] : List (Token Word)) := by
    rintro _ ⟨⟩
  obtain ⟨s, hparse, hlex⟩ := hline.finds ((append_nil ts).symm ▸ h) hend hneed
  refine parse_of_parseline hparse (hlex.skip_eq_nil.mpr rfl) fun w hw => ?_
  exact h.placed (suffix_refl _) w (hline.words hw)

theorem parsecmd_cases {ts : List (Token Word)} (h : Lexes place (cString buf) ts) :
    (∃ message, parsecmd buf = .error (.panic message)) ∨ ∃ t, Derives .line ts t ∧
      parsecmd buf = .ok (nulterminate (cString buf).length t buf, t) := by
  have hlength := h.length_le
  have hends := (sound (4 * (cString buf).length + 4)).line h (by omega)
  rw [parsecmd]
  match hparse : parseline (4 * (cString buf).length + 4) (cString buf), hends with
  | .error (.panic message), _ => exact .inl ⟨message, rfl⟩
  | .ok (t, s), ⟨rest, hlex, pre, hts, hline⟩ =>
    dsimp only [bind, Except.bind, peek]
    by_cases hs : skip s = []
    · obtain rfl := hlex.skip_eq_nil.mp hs
      rw [append_nil] at hts
      exact .inr ⟨t, hts ▸ hline, if_neg (not_not.mpr hs)⟩
    · rw [if_pos hs]
      exact .inl ⟨_, rfl⟩

/-- Other lines give a panic. -/
theorem parse_cases {ts : List (Token Word)} (h : Lexes place (cString buf) ts) :
    (∃ message, parse buf = .error (.panic message)) ∨ ∃ t, Derives .line ts t := by
  obtain ⟨message, herror⟩ | ⟨t, hline, -⟩ := parsecmd_cases h
  · exact .inl ⟨message, by rw [parse, herror]; rfl⟩
  · exact .inr ⟨t, hline⟩

/-- No NUL that `nulterminate` writes is inside a token, so each word of the tree is the text of
its token; and nothing is written after the NUL of the line. -/
theorem nulterminate_harmless {buf buf' : List Char} {t : Cmd Word}
    (h : parsecmd buf = .ok (buf', t)) :
    let len := (cString buf).length
    (∀ w ∈ t.words, cString (buf'.drop (len - w.q.length)) = w.text ∧ ∀ v ∈ t.words,
      ¬ (len - w.q.length ≤ len - v.eq.length ∧ len - v.eq.length < len - w.eq.length)) ∧
      ∀ i, len < i → buf'[i]? = buf[i]? := by
  obtain ⟨ts, hlex⟩ := exists_lexes place (no_nul_cString buf)
  obtain ⟨message, herror⟩ | ⟨t', hline, hok⟩ := parsecmd_cases hlex
  · cases herror.symm.trans h
  cases hok.symm.trans h
  have hplaced : ∀ w ∈ t.words, Placed (cString buf) w :=
    fun w hw => hlex.placed (suffix_refl _) w (hline.words hw)
  refine ⟨fun w hw => ⟨cString_nulterminate hplaced hw, fun v hv hin => ?_⟩, fun i hi => ?_⟩
  · obtain ⟨a, ha, hstart, hend⟩ := (hplaced w hw).split
    have hlt : (cString buf).length - v.eq.length - a.length < w.text.length := by omega
    exact (hplaced v hv).not_inside (hplaced w hw) ha hlt (by omega)
  · rw [nulterminate_eq]
    exact nulEnds_other buf fun w _ => by omega

/-- The line `a>b`, where the words touch the symbol. -/
theorem nulterminate_harmless_redir :
    parsecmd ['a', '>', 'b', '\x00'] = .ok (['a', '\x00', 'b', '\x00'],
      .redir (.exec [place ['a'] ['>', 'b']]) (place ['b'] []) 0x601 1) ∧
      cString (['a', '\x00', 'b', '\x00'].drop 2) = ['b'] := by
  have hparse : parsecmd ['a', '>', 'b', '\x00'] = .ok (['a', '\x00', 'b', '\x00'],
    .redir (.exec [place ['a'] ['>', 'b']]) (place ['b'] []) 0x601 1) := rfl
  exact ⟨hparse, ((nulterminate_harmless hparse).1 (place ['b'] []) (by decide)).1⟩

/-! ## Printing -/

/-- The token of a redirection in a tree. -/
def redirToken (mode : Nat) : Token W :=
  if mode = O_RDONLY then .less
  else if mode = O_WRONLY ||| O_CREATE ||| O_TRUNC then .great
  else .append

theorem redirToken_mode (kind : RedirKind) : redirToken kind.mode = (kind.token : Token W) := by
  cases kind <;> rfl

/-- Where a tree stands: as an `exec`, as a `pipe`, as a `pipe '&'*`, or as a `line`. -/
inductive Level where
  | exec
  | pipe
  | back
  | line
  deriving DecidableEq, Repr

/-- In parentheses unless it fits. -/
def paren (fits : Bool) (ts : List (Token W)) : List (Token W) :=
  if fits then ts else .lparen :: (ts ++ [.rparen])

/-- The tokens of a tree, with parentheses where they are needed. -/
def Cmd.tokens : Level → Cmd W → List (Token W)
  | _, .exec argv => argv.map .word
  | _, .redir cmd file mode _ => cmd.tokens .exec ++ [redirToken mode, .word file]
  | level, .pipe left right =>
    paren (level ≠ .exec) (left.tokens .exec ++ .bar :: right.tokens .pipe)
  | level, .back cmd => paren (level = .back ∨ level = .line) (cmd.tokens .back ++ [.amp])
  | level, .list left right =>
    paren (level = .line) (left.tokens .back ++ .semi :: right.tokens .line)

/-- The characters of a token. -/
def Token.text : Token (List Char) → List Char
  | .word w => w
  | .append => ['>', '>']
  | t => t.symbol.toList

/-- The tokens with a blank after each. -/
def render (ts : List (Token (List Char))) : List Char := ts.flatMap fun t => t.text ++ [' ']

/-- The tree as a command line. -/
def Cmd.print (t : Cmd (List Char)) : List Char := render (t.tokens .line)

/-- The tokens of a tree in its place. -/
def DerivesAt : Level → List (Token W) → Cmd W → Prop
  | .exec, ts, t => Derives .exec ts t
  | .pipe, ts, t => Derives .pipe ts t
  | .back, ts, t => ∃ n ts' t', Derives .pipe ts' t' ∧ ts = ts' ++ List.replicate n .amp ∧
      t = backs n t'
  | .line, ts, t => Derives .line ts t

/-- What the trees of derivations have in common: no more than `MAXARGS - 1` words in an
`execcmd`, and modes of redirections. -/
def Cmd.Proper : Cmd W → Prop
  | .exec argv => argv.length ≤ MAXARGS - 1
  | .redir cmd _ mode fd => cmd.Proper ∧ ∃ kind : RedirKind, mode = kind.mode ∧ fd = kind.fd
  | .pipe left right | .list left right => left.Proper ∧ right.Proper
  | .back cmd => cmd.Proper

theorem proper_wrap (h : t.Proper) : (wrap rs t).Proper := by
  induction rs generalizing t with
  | nil => exact h
  | cons r rs ih => exact ih ⟨h, r.kind, rfl, rfl⟩

theorem proper_backs {n : Nat} (h : t.Proper) : (backs n t).Proper := by
  induction n with
  | zero => exact h
  | succ n ih => exact ih

theorem Derives.proper (h : Derives nt ts t) : t.Proper := by
  induction h with
  | args _ _ hlength => exact proper_wrap hlength
  | block _ _ ih => exact proper_wrap ih
  | exec _ ih => exact ih
  | pipe _ _ ih ih' => exact ⟨ih, ih'⟩
  | last n _ ih => exact proper_backs ih
  | line n _ _ ih ih' => exact ⟨proper_backs ih, ih'⟩

theorem Redirs.snoc (h : Redirs ts rs) (r : Redir W) :
    Redirs (ts ++ [r.kind.token, .word r.file]) (rs ++ [r]) := by
  induction h with
  | nil => exact .cons r .nil
  | cons r' _ ih => exact .cons r' ih

theorem Args.snoc (h : Args ts ws rs) (hne : ws ≠ []) (r : Redir W) :
    Args (ts ++ [r.kind.token, .word r.file]) ws (rs ++ [r]) := by
  induction h with
  | nil => exact absurd rfl hne
  | @cons w ts ts' ws rs rs' hredirs hargs ih =>
    rw [cons_append, append_assoc, append_assoc]
    by_cases hws : ws = []
    · cases hargs with
      | nil =>
        have hlast := Args.cons w (hredirs.snoc r) .nil
        rwa [append_nil, append_nil] at hlast
      | cons => cases hws
    · exact .cons w hredirs (ih hws)

theorem Derives.redir (h : Derives .exec ts t) (r : Redir W) :
    Derives .exec (ts ++ [r.kind.token, .word r.file]) (.redir t r.file r.kind.mode r.kind.fd) := by
  have hwrap : ∀ rs t, Cmd.redir (wrap rs t) r.file r.kind.mode r.kind.fd = wrap (rs ++ [r]) t := by
    intro rs t
    rw [wrap_append]
    rfl
  cases h with
  | @args ts ts' ws rs rs' hredirs hargs hlength =>
    rw [hwrap, append_assoc, append_assoc]
    by_cases hws : ws = []
    · cases hargs with
      | nil =>
        have hlast := Derives.args (hredirs.snoc r) .nil hlength
        rwa [append_nil, append_nil] at hlast
      | cons => cases hws
    · exact .args hredirs (hargs.snoc hws r) hlength
  | block hline hredirs =>
    rw [hwrap, cons_append, append_assoc, cons_append]
    exact .block hline (hredirs.snoc r)

theorem derives_words {argv : List W} (h : argv.length ≤ MAXARGS - 1) :
    Derives .exec (argv.map Token.word) (.exec argv) := by
  have hargs : ∀ ws : List W, Args (ws.map Token.word) ws [] := by
    intro ws
    induction ws with
    | nil => exact .nil
    | cons w ws ih => exact .cons w .nil ih
  exact .args .nil (hargs argv) h

/-- An `exec` may stand in every place. -/
theorem Derives.at (h : Derives .exec ts t) (level : Level) :
    DerivesAt level ts t := by
  cases level with
  | exec => exact h
  | pipe => exact .exec h
  | back => exact ⟨0, ts, t, .exec h, (append_nil ts).symm, rfl⟩
  | line => exact append_nil ts ▸ Derives.last 0 (.exec h)

theorem DerivesAt.line (h : DerivesAt .back ts t) :
    Derives .line ts t := by
  obtain ⟨n, ts', t', hpipe, rfl, rfl⟩ := h
  exact .last n hpipe

theorem Derives.paren (h : Derives .line ts t) (level : Level) :
    DerivesAt level (.lparen :: (ts ++ [.rparen])) t := Derives.at (.block h .nil) level

/-- The printed tokens derive the tree. -/
theorem derives_tokens (h : t.Proper) (level : Level) :
    DerivesAt level (t.tokens level) t := by
  induction t generalizing level with
  | exec argv => exact (derives_words h).at level
  | redir cmd file mode fd ih =>
    obtain ⟨hcmd, kind, rfl, rfl⟩ := h
    have hredir := Derives.redir (ih hcmd .exec) ⟨kind, file⟩
    rw [← redirToken_mode] at hredir
    exact hredir.at level
  | pipe left right ihl ihr =>
    have hpipe := Derives.pipe (ihl h.1 .exec) (ihr h.2 .pipe)
    have hback : DerivesAt .back _ _ := ⟨0, _, _, hpipe, (append_nil _).symm, rfl⟩
    cases level with
    | exec => exact hback.line.paren .exec
    | pipe => exact hpipe
    | back => exact hback
    | line => exact hback.line
  | back cmd ih =>
    obtain ⟨n, ts, t, hpipe, hts, ht⟩ := ih h .back
    have hback : DerivesAt .back (cmd.tokens .back ++ [.amp]) (.back cmd) := by
      refine ⟨n + 1, ts, t, hpipe, ?_, ?_⟩
      · rw [hts, append_assoc, replicate_succ']
      · rw [ht]
        rfl
    cases level with
    | exec => exact hback.line.paren .exec
    | pipe => exact hback.line.paren .pipe
    | back => exact hback
    | line => exact hback.line
  | list left right ihl ihr =>
    obtain ⟨n, ts, t, hpipe, hts, ht⟩ := ihl h.1 .back
    have hline : Derives .line (left.tokens .back ++ .semi :: right.tokens .line)
        (.list left right) := by
      rw [hts, ht, append_assoc]
      exact .line n hpipe (ihr h.2 .line)
    cases level with
    | exec => exact hline.paren .exec
    | pipe => exact hline.paren .pipe
    | back => exact hline.paren .back
    | line => exact hline

theorem tokenWords_paren (fits : Bool) (ts : List (Token W)) :
    tokenWords (paren fits ts) = tokenWords ts := by
  cases fits with
  | true => rfl
  | false =>
    refine (tokenWords_symbol rfl _).trans ?_
    rw [tokenWords_append]
    exact append_nil _

theorem tokenWords_map_word (ws : List W) : tokenWords (ws.map Token.word) = ws := by
  induction ws with
  | nil => rfl
  | cons w ws ih => exact congrArg (w :: ·) ih

theorem tokenWords_redirToken (mode : Nat) (file : W) :
    tokenWords [redirToken mode, .word file] = [file] := by
  rw [redirToken]
  split
  · rfl
  · split <;> rfl

/-- Printing keeps the words. -/
theorem tokenWords_tokens (t : Cmd W) (level : Level) :
    tokenWords (t.tokens level) = t.words := by
  induction t generalizing level with
  | exec argv => exact tokenWords_map_word argv
  | redir cmd file mode fd ih =>
    rw [Cmd.tokens, tokenWords_append, ih, tokenWords_redirToken, Cmd.words]
  | pipe left right ihl ihr | list left right ihl ihr =>
    rw [Cmd.tokens, tokenWords_paren, tokenWords_append, tokenWords_symbol rfl, ihl, ihr, Cmd.words]
  | back cmd ih =>
    rw [Cmd.tokens, tokenWords_paren, tokenWords_append, ih, Cmd.words]
    exact append_nil _

/-- The text of a word. -/
def IsWord (w : List Char) : Prop := w ≠ [] ∧ ∀ c ∈ w, WordChar c

theorem Lexes.isWord {ts : List (Token (List Char))} (h : Lexes (fun w _ => w) s ts) :
    ∀ w ∈ tokenWords ts, IsWord w := by
  induction h with
  | nil => exact nofun
  | space _ _ ih => exact ih
  | single t ht _ _ ih =>
    rw [tokenWords_symbol ht]
    exact ih
  | great _ _ ih => exact ih
  | append _ ih => exact ih
  | word w hne hw _ _ ih =>
    rintro x (_ | ⟨_, hx⟩)
    · exact ⟨hne, hw⟩
    · exact ih x hx

theorem lexes_render {ts : List (Token (List Char))} (h : ∀ w ∈ tokenWords ts, IsWord w) :
    Lexes (fun w _ => w) (render ts) ts := by
  induction ts with
  | nil => exact .nil
  | cons t ts ih =>
    have hrest : ∀ w ∈ tokenWords ts, IsWord w := by
      cases t
      case word v => exact fun w hw => h w (mem_cons_of_mem v hw)
      all_goals exact h
    have hblank : Lexes (fun w _ => w) (' ' :: render ts) ts := .space (by decide) (ih hrest)
    have hends : WordEnds (' ' :: render ts) := by
      rintro _ ⟨⟩ hword
      exact hword.2.1 (by decide)
    rw [render, flatMap_cons, append_assoc]
    cases t
    case word w =>
      have hw := h w mem_cons_self
      exact .word w hw.1 hw.2 hends hblank
    case great =>
      have hhead : (' ' :: render ts).head? ≠ some '>' := by simp
      exact .great hhead hblank
    case append => exact .append hblank
    case bar => exact .single .bar rfl (by decide) hblank
    case lparen => exact .single .lparen rfl (by decide) hblank
    case rparen => exact .single .rparen rfl (by decide) hblank
    case semi => exact .single .semi rfl (by decide) hblank
    case amp => exact .single .amp rfl (by decide) hblank
    case less => exact .single .less rfl (by decide) hblank

theorem cString_of_no_nul (h : '\x00' ∉ s) : cString s = s := by
  refine cString_eq h (fun _ _ => rfl) fun c hc => ?_
  rw [getElem?_eq_none le_rfl] at hc
  cases hc

theorem parse_eq_ok_iff {t : Cmd (List Char)} : parse buf = .ok t ↔
      ∃ ts, Lexes (fun w _ => w) (cString buf) ts ∧ Derives .line ts t := by
  have htext : (fun w s => (place w s).text) = fun w _ => w := by
    funext w s
    exact text_place w s
  obtain ⟨ts, hlex⟩ := exists_lexes place (no_nul_cString buf)
  have hlex' := hlex.map Word.text
  rw [htext] at hlex'
  constructor
  · intro hparse
    rcases parse_cases hlex with ⟨message, herror⟩ | ⟨t', hline⟩
    · rw [herror] at hparse
      cases hparse
    · rw [parse_of_derives hlex hline] at hparse
      obtain rfl := Except.ok.inj hparse
      exact ⟨_, hlex', hline.map Word.text⟩
  · rintro ⟨ts', hts', hline⟩
    rw [← htext] at hts'
    obtain ⟨ts1, hlex1, rfl⟩ := hts'.exists_map
    obtain ⟨t1, hline1, rfl⟩ := hline.exists_map rfl
    exact parse_of_derives hlex1 hline1

/-- `parsecmd` ends with a panic or a tree and never stores outside `argv`; it returns a tree
exactly for the lines of the grammar, the tree of the derivation; and the printed tree parses to
the same tree. -/
theorem parsecmd_grammar (buf : List Char) :
    ((∃ message, parse buf = .error (.panic message)) ∨ ∃ t, parse buf = .ok t) ∧
    (∀ t, parse buf = .ok t ↔
      ∃ ts, Lexes (fun w _ => w) (cString buf) ts ∧ Derives .line ts t) ∧
    ∀ t, parse buf = .ok t → parse t.print = .ok t := by
  obtain ⟨ts, hlex⟩ := exists_lexes place (no_nul_cString buf)
  refine ⟨?_, fun t => parse_eq_ok_iff, fun t hparse => ?_⟩
  · rcases parse_cases hlex with herror | ⟨t, hline⟩
    · exact .inl herror
    · exact .inr ⟨_, parse_of_derives hlex hline⟩
  · obtain ⟨ts', hlex', hline⟩ := parse_eq_ok_iff.mp hparse
    have hwords : ∀ w ∈ tokenWords (t.tokens .line), IsWord w := by
      rw [tokenWords_tokens]
      exact fun w hw => hlex'.isWord w (hline.words hw)
    have hprint := lexes_render hwords
    refine parse_eq_ok_iff.mpr ⟨t.tokens .line, ?_, derives_tokens hline.proper .line⟩
    rw [Cmd.print, cString_of_no_nul hprint.no_nul]
    exact hprint

/-- The line `(a;b)>x|c&` and its printed tree. -/
theorem parsecmd_grammar_pipe :
    let t := Cmd.back (.pipe (.redir (.list (.exec [['a']]) (.exec [['b']])) ['x'] 0x601 1)
      (.exec [['c']]))
    parse ['(', 'a', ';', 'b', ')', '>', 'x', '|', 'c', '&'] = .ok t ∧ parse t.print = .ok t := by
  have hparse : parse ['(', 'a', ';', 'b', ')', '>', 'x', '|', 'c', '&'] = .ok _ := rfl
  exact ⟨hparse, (parsecmd_grammar _).2.2 _ hparse⟩

end EAFITos.Shell
