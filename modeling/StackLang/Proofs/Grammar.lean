import StackLang.Proofs.Spelling

/-!
This module contains the lexical grammar: which parts of a text are gaps, which are lexemes, and
what a lexeme denotes. A scan splits a text in the one way that the grammar allows.
-/

namespace StackLang

namespace Lexeme

def EndsLine (cs : List Char) : Prop := ∀ c ∈ cs.head?, c = '\n'

/--
The text `g` in front of `rest` holds nothing but blanks and comments. A comment goes on to the end
of its line.
-/
inductive Gap : (g rest : List Char) → Prop
  | nil {rest : List Char} : Gap [] rest
  | blank {c : Char} {g rest : List Char} (hc : Text.isBlank c = true) (h : Gap g rest) :
      Gap (c :: g) rest
  | comment {body g rest : List Char} (hbody : '\n' ∉ body) (hline : EndsLine (g ++ rest))
      (h : Gap g rest) : Gap ('/' :: '/' :: (body ++ g)) rest

/--
The text `body` inside quotes, with the characters that it stands for: a character stands for
itself, but for the quote, a line feed and a backslash, which makes an escape of what follows it.
-/
inductive Quoted (quote : Char) : (body chars : List Char) → Prop
  | nil : Quoted quote [] []
  | plain {c : Char} {body chars : List Char} (hescape : c ≠ '\\') (hquote : c ≠ quote)
      (hfeed : c ≠ '\n') (h : Quoted quote body chars) : Quoted quote (c :: body) (c :: chars)
  | escape (c : Char) {body chars : List Char} (h : Quoted quote body chars) :
      Quoted quote ('\\' :: c :: body) (unescape c ++ chars)

inductive Literal
  | string | char
deriving DecidableEq

namespace Literal

def quote : Literal → Char
  | string => '"'
  | char => '\''

def outcome : Literal → List Char → Ending → Except LexicalFault Token
  | string, chars, .quote => .ok (.str (String.ofList chars))
  | string, _, .newline => .error .newlineInString
  | string, _, .endOfText => .error .unclosedString
  | char, chars, .quote => charToken chars
  | char, _, .newline => .error .unclosedChar
  | char, _, .endOfText => .error .unclosedChar

end Literal

/--
The characters `taken` in front of `rest` are a lexeme, which denotes a token or is at fault. Words
and type parameters go on as far as they can. A literal that is not closed goes on to the end of the
line, or to the end of the text, where a backslash may be left over.
-/
inductive Denotes : (taken rest : List Char) → Except LexicalFault Token → Prop
  | lparen {rest : List Char} : Denotes ['('] rest (.ok .lparen)
  | rparen {rest : List Char} : Denotes [')'] rest (.ok .rparen)
  | closed (l : Literal) {body chars rest : List Char} (h : Quoted l.quote body chars) :
      Denotes (l.quote :: (body ++ [l.quote])) rest (l.outcome chars .quote)
  | broken (l : Literal) {body chars rest : List Char} (h : Quoted l.quote body chars)
      (hrest : rest.head? = some '\n') :
      Denotes (l.quote :: body) rest (l.outcome chars .newline)
  | unclosed (l : Literal) {body chars tail : List Char} (h : Quoted l.quote body chars)
      (htail : tail = [] ∨ tail = ['\\']) :
      Denotes (l.quote :: (body ++ tail)) [] (l.outcome chars .endOfText)
  | nameless {rest : List Char} (hrest : StartsBlank rest) :
      Denotes ['$'] rest (.error .namelessParam)
  | param {name rest : List Char} (hne : name ≠ []) (hname : name.all (!Text.isBlank ·) = true)
      (hrest : StartsBlank rest) : Denotes ('$' :: name) rest (.ok (.param (String.ofList name)))
  | word {word rest : List Char} (h : IsWord word)
      (hrest : ∀ c ∈ rest.head?, isWordChar c = false) : Denotes word rest (readWord word)

/-! ## Gaps -/

theorem gap_true_cons (c : Char) (cs : List Char) :
    gap true (c :: cs) = (c :: (gap (c ≠ '\n') cs).1, (gap (c ≠ '\n') cs).2) := rfl

theorem gap_comment (cs : List Char) :
    gap false ('/' :: '/' :: cs) = ('/' :: '/' :: (gap true cs).1, (gap true cs).2) := rfl

theorem gap_true_append {body : List Char} (h : '\n' ∉ body) (cs : List Char) :
    gap true (body ++ cs) = (body ++ (gap true cs).1, (gap true cs).2) := by
  induction body with
  | nil => rfl
  | cons c body ih =>
    rw [List.mem_cons, not_or] at h
    have hc : (decide (c ≠ '\n')) = true := by simpa using Ne.symm h.1
    rw [List.cons_append, gap_true_cons, hc, ih h.2]
    rfl

theorem gap_true_of_endsLine {cs : List Char} (h : EndsLine cs) : gap true cs = gap false cs := by
  cases cs with
  | nil => rfl
  | cons c cs =>
    obtain rfl : c = '\n' := h c rfl
    rw [gap_blank (by decide), gap_true_cons]
    rfl

structure StartsLexeme (cs : List Char) : Prop where
  blank : ∀ c ∈ cs.head?, Text.isBlank c = false
  comment : ¬ ['/', '/'] <+: cs

theorem StartsLexeme.nil : StartsLexeme [] := ⟨by simp, by simp⟩

theorem StartsLexeme.cons {c : Char} {cs : List Char} (hc : Text.isBlank c = false)
    (hcomment : ¬ ['/', '/'] <+: c :: cs) : StartsLexeme (c :: cs) :=
  ⟨by simpa using hc, hcomment⟩

theorem gap_of_startsLexeme {cs : List Char} (h : StartsLexeme cs) : gap false cs = ([], cs) := by
  cases cs with
  | nil => rfl
  | cons c cs => exact gap_eq_nil (h.blank c rfl) h.comment

theorem Gap.gap_eq {g rest : List Char} (h : Gap g rest) (hrest : StartsLexeme rest) :
    gap false (g ++ rest) = (g, rest) := by
  induction h with
  | nil => exact gap_of_startsLexeme hrest
  | blank hc _ ih => rw [List.cons_append, gap_blank hc, ih hrest]
  | comment hbody hline _ ih =>
    rw [List.cons_append, List.cons_append, List.append_assoc, gap_comment, gap_true_append hbody,
      gap_true_of_endsLine hline, ih hrest]

theorem exists_gap (inComment : Bool) (cs : List Char) :
    ∃ body g, (gap inComment cs).1 = body ++ g ∧ '\n' ∉ body ∧ Gap g (gap inComment cs).2 ∧
      (inComment = true → EndsLine (g ++ (gap inComment cs).2)) ∧
      (inComment = false → body = []) := by
  fun_induction gap inComment cs with
  | case1 => exact ⟨[], [], rfl, by simp, .nil, by simp [EndsLine], by simp⟩
  | case2 c cs g rest hgap ih =>
    simp only [hgap] at ih
    obtain ⟨body, g', rfl, hbody, hgap', hline, hopen⟩ := ih
    by_cases hc : c = '\n'
    · -- the line feed ends the comment, and what follows it is a gap of its own
      subst hc
      obtain rfl : body = [] := hopen rfl
      refine ⟨[], '\n' :: g', rfl, by simp, .blank (by decide) hgap', ?_, by simp⟩
      simp [EndsLine]
    · refine ⟨c :: body, g', rfl, ?_, hgap', ?_, by simp⟩
      · rw [List.mem_cons, not_or]
        exact ⟨Ne.symm hc, hbody⟩
      · intro _
        exact hline (by simpa using hc)
  | case3 cs g rest hgap ih =>
    simp only [hgap] at ih
    obtain ⟨body, g', rfl, hbody, hgap', hline, -⟩ := ih
    exact ⟨[], _, rfl, by simp, .comment hbody (hline trivial) hgap', by simp, by simp⟩
  | case4 c cs _ hblank g rest hgap ih =>
    simp only [hgap] at ih
    obtain ⟨body, g', rfl, -, hgap', -, hopen⟩ := ih
    obtain rfl : body = [] := hopen trivial
    exact ⟨[], _, rfl, by simp, .blank hblank hgap', by simp, by simp⟩
  | case5 => exact ⟨[], [], rfl, by simp, .nil, by simp, by simp⟩

theorem isGap_gap (cs : List Char) : Gap (gap false cs).1 (gap false cs).2 := by
  obtain ⟨body, g, hg, -, hgap, -, hopen⟩ := exists_gap false cs
  obtain rfl : body = [] := hopen rfl
  rw [hg]
  exact hgap

theorem startsLexeme_gap (cs : List Char) : StartsLexeme (gap false cs).2 := by
  cases hgap : gap false cs with
  | mk g rest =>
    cases rest with
    | nil => exact .nil
    | cons c rest => exact .cons (isBlank_of_gap hgap) (not_comment_of_gap hgap)

/-! ## Literals -/

theorem Quoted.content_eq {quote : Char} {body chars : List Char} (h : Quoted quote body chars)
    (rest : List Char) :
    content quote (body ++ rest) =
      ⟨chars ++ (content quote rest).chars, body ++ (content quote rest).taken,
        (content quote rest).rest, (content quote rest).ending⟩ := by
  induction h with
  | nil => rfl
  | plain hescape hquote hfeed _ ih =>
    rw [List.cons_append, content_cons hescape, if_neg hquote, if_neg hfeed, ih]
    rfl
  | escape c _ ih =>
    rw [List.cons_append, List.cons_append, content_escaped, ih, List.append_assoc]
    rfl

theorem Quoted.eq_concat_of_feed {quote : Char} {body chars : List Char}
    (h : Quoted quote body chars) {before after : List Char}
    (heq : body = before ++ '\n' :: after) :
    ∃ front chars', Quoted quote front chars' ∧ before = front ++ ['\\'] := by
  induction h generalizing before with
  | nil => simp at heq
  | plain hescape hquote hfeed _ ih =>
    cases before with
    | nil => exact absurd (List.cons.inj heq).1 hfeed
    | cons c before =>
      obtain ⟨rfl, hrest⟩ := List.cons.inj heq
      obtain ⟨front, chars', hfront, rfl⟩ := ih hrest
      exact ⟨_, _, .plain hescape hquote hfeed hfront, rfl⟩
  | escape c _ ih =>
    rcases before with _ | ⟨d, _ | ⟨e, before⟩⟩
    · simp at heq
    · obtain ⟨rfl, -⟩ := List.cons.inj heq
      exact ⟨[], [], .nil, rfl⟩
    · simp only [List.cons_append, List.cons.injEq] at heq
      obtain ⟨rfl, rfl, heq⟩ := heq
      obtain ⟨front, chars', hfront, rfl⟩ := ih heq
      exact ⟨_, _, .escape c hfront, rfl⟩

theorem Literal.quote_ne (l : Literal) : l.quote ≠ '\\' ∧ '\n' ≠ l.quote := by
  cases l <;> decide

theorem Literal.cut_quote (l : Literal) (cs : List Char) :
    cut l.quote cs =
      ⟨l.outcome (content l.quote cs).chars (content l.quote cs).ending,
        l.quote :: (content l.quote cs).taken, (content l.quote cs).rest⟩ := by
  cases l with
  | string =>
    change cutString cs = _
    unfold cutString
    cases hending : (content '"' cs).ending <;> simp [quote, outcome, hending]
  | char =>
    change cutChar cs = _
    unfold cutChar
    cases hending : (content '\'' cs).ending <;> simp [quote, outcome, hending]

namespace Quoted

variable {l : Literal} {body chars : List Char}

theorem cut_closed (h : Quoted l.quote body chars) (rest : List Char) :
    cut l.quote (body ++ l.quote :: rest) =
      ⟨l.outcome chars .quote, l.quote :: (body ++ [l.quote]), rest⟩ := by
  rw [l.cut_quote, h.content_eq, content_cons l.quote_ne.1, if_pos rfl, List.append_nil]

theorem cut_broken (h : Quoted l.quote body chars) (rest : List Char) :
    cut l.quote (body ++ '\n' :: rest) =
      ⟨l.outcome chars .newline, l.quote :: body, '\n' :: rest⟩ := by
  rw [l.cut_quote, h.content_eq, content_cons (by decide), if_neg l.quote_ne.2, if_pos rfl,
    List.append_nil, List.append_nil]

theorem cut_unclosed (h : Quoted l.quote body chars) {tail : List Char}
    (htail : tail = [] ∨ tail = ['\\']) :
    cut l.quote (body ++ tail) = ⟨l.outcome chars .endOfText, l.quote :: (body ++ tail), []⟩ := by
  -- a literal that is not closed denotes no content
  have houtcome (more : List Char) : l.outcome more .endOfText = l.outcome chars .endOfText := by
    cases l <;> rfl
  rw [l.cut_quote, h.content_eq, ← houtcome (chars ++ tail)]
  rcases htail with rfl | rfl <;> rfl

end Quoted

theorem exists_quoted (quote : Char) (cs : List Char) :
    ∃ body chars rest, cs = body ++ rest ∧ Quoted quote body chars ∧
      ((∃ more, rest = quote :: more) ∨ (∃ more, rest = '\n' :: more) ∨ rest = [] ∨
        rest = ['\\']) := by
  fun_induction content quote cs with
  | case1 => exact ⟨[], [], [], rfl, .nil, by simp⟩
  | case2 => exact ⟨[], [], ['\\'], rfl, .nil, by simp⟩
  | case3 c cs _ ih =>
    obtain ⟨body, chars, rest, rfl, hbody, hrest⟩ := ih
    exact ⟨'\\' :: c :: body, _, rest, rfl, .escape c hbody, hrest⟩
  | case4 cs _ _ => exact ⟨[], [], _, rfl, .nil, by simp⟩
  | case5 cs _ _ _ => exact ⟨[], [], _, rfl, .nil, by simp⟩
  | case6 c cs hlone hescape hquote hfeed _ ih =>
    have hc : c ≠ '\\' := by
      intro hc
      cases cs with
      | nil => exact hlone hc rfl
      | cons d cs => exact hescape d cs hc rfl
    obtain ⟨body, chars, rest, rfl, hbody, hrest⟩ := ih
    exact ⟨c :: body, _, rest, rfl, .plain hc hquote hfeed hbody, hrest⟩

/-! ## Lexemes -/

theorem StartsLexeme.of_ne {c : Char} (hc : Text.isBlank c = false) (hslash : c ≠ '/')
    (cs : List Char) : StartsLexeme (c :: cs) :=
  .cons hc (not_comment_of_ne hslash cs)

theorem IsWord.startsLexeme {word rest : List Char} (h : IsWord word)
    (hrest : ∀ c ∈ rest.head?, isWordChar c = false) : StartsLexeme (word ++ rest) := by
  have hcomment := h.not_comment hrest
  obtain ⟨c, word, rfl⟩ := List.exists_cons_of_ne_nil h.ne_nil
  exact .cons h.isBlank hcomment

theorem cut_param {name rest : List Char} (hname : name.all (!Text.isBlank ·) = true)
    (hrest : StartsBlank rest) :
    cut '$' (name ++ rest) =
      ⟨if name.isEmpty then .error .namelessParam else .ok (.param (String.ofList name)),
        '$' :: name, rest⟩ := by
  have hstop : ∀ c ∈ rest.head?, (!Text.isBlank c) = false := fun c hc => by simp [hrest c hc]
  obtain ⟨htake, hdrop⟩ := takeWhile_append_of_stop (p := (!Text.isBlank ·)) hname hstop
  change cutParam (name ++ rest) = _
  rw [cutParam, htake, hdrop]

namespace Denotes

variable {taken rest : List Char} {o : Except LexicalFault Token}

theorem ne_nil (h : Denotes taken rest o) : taken ≠ [] := by
  cases h with
  | word h => exact h.ne_nil
  | _ => exact List.cons_ne_nil _ _

theorem startsLexeme (h : Denotes taken rest o) : StartsLexeme (taken ++ rest) := by
  cases h with
  | lparen | rparen | nameless | param => exact .of_ne (by decide) (by decide) _
  | closed l | broken l | unclosed l => cases l <;> exact .of_ne (by decide) (by decide) _
  | word h hrest => exact h.startsLexeme hrest

theorem cut_eq (h : Denotes taken rest o) :
    ∃ c cs, taken ++ rest = c :: cs ∧ cut c cs = ⟨o, taken, rest⟩ := by
  cases h with
  | lparen | rparen => exact ⟨_, _, rfl, rfl⟩
  | closed l h =>
    refine ⟨l.quote, _, ?_, h.cut_closed rest⟩
    simp
  | broken l h hrest =>
    obtain ⟨more, rfl⟩ := List.head?_eq_some_iff.mp hrest
    exact ⟨l.quote, _, rfl, h.cut_broken more⟩
  | unclosed l h htail =>
    refine ⟨l.quote, _, ?_, h.cut_unclosed htail⟩
    simp
  | nameless hrest => exact ⟨'$', [] ++ rest, rfl, cut_param rfl hrest⟩
  | @param name _ hne hname hrest =>
    refine ⟨'$', name ++ rest, rfl, ?_⟩
    rw [cut_param hname hrest, if_neg (by simpa using hne)]
  | word h hrest =>
    obtain ⟨c, word, rfl⟩ := List.exists_cons_of_ne_nil h.ne_nil
    exact ⟨c, word ++ rest, rfl, cut_word h hrest⟩

end Denotes

theorem eq_false_of_mem_head?_dropWhile {p : Char → Bool} {cs : List Char} {c : Char}
    (h : c ∈ (cs.dropWhile p).head?) : p c = false := by
  have hnot := List.head?_dropWhile_not p cs
  rw [h] at hnot
  simpa using hnot

theorem exists_denotes {c : Char} {cs : List Char} (h : StartsLexeme (c :: cs)) :
    ∃ taken rest o, c :: cs = taken ++ rest ∧ Denotes taken rest o := by
  have hquoted (l : Literal) (hc : c = l.quote) :
      ∃ taken rest o, c :: cs = taken ++ rest ∧ Denotes taken rest o := by
    obtain ⟨body, chars, rest, rfl, hbody, hstop⟩ := exists_quoted l.quote cs
    rw [hc]
    rcases hstop with ⟨more, rfl⟩ | ⟨more, rfl⟩ | htail
    · exact ⟨_, more, _, by simp, .closed l hbody⟩
    · exact ⟨_, '\n' :: more, _, rfl, .broken l hbody rfl⟩
    · exact ⟨_, [], _, by simp, .unclosed l hbody htail⟩
  by_cases hlparen : c = '('
  · rw [hlparen]
    exact ⟨_, cs, _, rfl, .lparen⟩
  by_cases hrparen : c = ')'
  · rw [hrparen]
    exact ⟨_, cs, _, rfl, .rparen⟩
  by_cases hstring : c = '"'
  · exact hquoted .string hstring
  by_cases hchar : c = '\''
  · exact hquoted .char hchar
  by_cases hparam : c = '$'
  · have hrest : StartsBlank (cs.dropWhile (!Text.isBlank ·)) := by
      intro d hd
      simpa using eq_false_of_mem_head?_dropWhile hd
    have hsplit : c :: cs = ('$' :: cs.takeWhile (!Text.isBlank ·)) ++
        cs.dropWhile (!Text.isBlank ·) := by
      rw [hparam, List.cons_append, List.takeWhile_append_dropWhile]
    by_cases hne : cs.takeWhile (!Text.isBlank ·) = []
    · rw [hne] at hsplit
      exact ⟨_, _, _, hsplit, .nameless hrest⟩
    · exact ⟨_, _, _, hsplit, .param hne List.all_takeWhile hrest⟩
  · have hpunctuation : isPunctuation c = false := by
      simp [isPunctuation, hlparen, hrparen, hstring, hchar]
    have hword := isWord_cut (h.blank c rfl) hpunctuation hparam h.comment
    refine ⟨_, cs.dropWhile isWordChar, _, ?_, .word hword ?_⟩
    · rw [List.cons_append, List.takeWhile_append_dropWhile]
    · intro d hd
      exact eq_false_of_mem_head?_dropWhile hd

theorem denotes_cut {c : Char} {cs : List Char} (h : StartsLexeme (c :: cs)) :
    Denotes (cut c cs).taken (cut c cs).rest (cut c cs).outcome := by
  obtain ⟨taken, rest, o, hcs, hdenotes⟩ := exists_denotes h
  obtain ⟨d, ds, hds, hcut⟩ := hdenotes.cut_eq
  obtain ⟨rfl, rfl⟩ := List.cons.inj (hcs.trans hds)
  rw [hcut]
  exact hdenotes

/-! ## Whole texts -/

structure Placed where
  offset : Nat
  chars : List Char
  outcome : Except LexicalFault Token

/--
A text that starts at the offset `n` is made up of these lexemes, in order, and of a gap in front of
each and behind the last one.
-/
inductive Tiles : (n : Nat) → (cs : List Char) → List Placed → Prop
  | stop {n : Nat} {g : List Char} (hg : Gap g []) : Tiles n g []
  | lexeme {n : Nat} {g rest : List Char} {l : Placed} {ls : List Placed}
      (hg : Gap g (l.chars ++ rest)) (hl : Denotes l.chars rest l.outcome)
      (hoffset : l.offset = n + g.length) (h : Tiles (l.offset + l.chars.length) rest ls) :
      Tiles n (g ++ (l.chars ++ rest)) (l :: ls)

theorem exists_tiles (n : Nat) (cs : List Char) : ∃ ls, Tiles n cs ls := by
  have hgap := isGap_gap cs
  have hstart := startsLexeme_gap cs
  have hcs := gap_append false cs
  cases hrest : (gap false cs).2 with
  | nil =>
    rw [hrest] at hgap hcs
    rw [List.append_nil] at hcs
    rw [hcs] at hgap
    exact ⟨[], .stop hgap⟩
  | cons c rest =>
    rw [hrest] at hgap hcs hstart
    have hcut := cut_append c rest
    have : (cut c rest).rest.length < cs.length := by
      have := length_cut_rest_lt c rest
      rw [← hcs, List.length_append]
      omega
    obtain ⟨ls, hls⟩ := exists_tiles
      (n + (gap false cs).1.length + (cut c rest).taken.length) (cut c rest).rest
    rw [← hcut] at hgap
    refine ⟨⟨n + (gap false cs).1.length, (cut c rest).taken, (cut c rest).outcome⟩ :: ls, ?_⟩
    have htiles := Tiles.lexeme (l := ⟨_, _, _⟩) hgap (denotes_cut hstart) rfl hls
    rwa [hcut, hcs] at htiles
termination_by cs.length

namespace Tiles

variable {n : Nat} {cs : List Char} {ls : List Placed}

theorem le_offset (h : Tiles n cs ls) {l : Placed} (hl : l ∈ ls) : n ≤ l.offset := by
  induction h with
  | stop => simp at hl
  | lexeme _ _ hoffset _ ih =>
    rcases List.mem_cons.mp hl with rfl | hl
    · omega
    · have := ih hl
      omega

theorem offset_le (h : Tiles n cs ls) {l : Placed} (hl : l ∈ ls) : l.offset ≤ n + cs.length := by
  induction h with
  | stop => simp at hl
  | lexeme _ _ hoffset _ ih =>
    simp only [List.length_append]
    rcases List.mem_cons.mp hl with rfl | hl
    · omega
    · have := ih hl
      omega

theorem drop_offset (h : Tiles n cs ls) {l : Placed} (hl : l ∈ ls) :
    ∃ rest, cs.drop (l.offset - n) = l.chars ++ rest ∧ Denotes l.chars rest l.outcome := by
  induction h with
  | stop => simp at hl
  | @lexeme n g rest first ls _ hfirst hoffset h ih =>
    rcases List.mem_cons.mp hl with rfl | hl
    · refine ⟨rest, ?_, hfirst⟩
      rw [hoffset, Nat.add_sub_cancel_left, List.drop_left]
    · obtain ⟨rest', hdrop, hdenotes⟩ := ih hl
      refine ⟨rest', ?_, hdenotes⟩
      have hle := h.le_offset hl
      have hsum : l.offset - n =
          g.length + (first.chars.length + (l.offset - (first.offset + first.chars.length))) := by
        omega
      rw [hsum, List.drop_length_add_append, List.drop_length_add_append, hdrop]

theorem pairwise_offset (h : Tiles n cs ls) : (ls.map (·.offset)).Pairwise (· < ·) := by
  induction h with
  | stop => exact .nil
  | lexeme _ hl _ h ih =>
    rw [List.map_cons, List.pairwise_cons]
    refine ⟨?_, ih⟩
    intro k hk
    obtain ⟨l', hl', rfl⟩ := List.mem_map.mp hk
    have hlength := List.length_pos_iff.mpr hl.ne_nil
    have hle := h.le_offset hl'
    omega

theorem unique {ks : List Placed} (h : Tiles n cs ls) (h' : Tiles n cs ks) : ls = ks := by
  induction h generalizing ks with
  | @stop _ g hg =>
    generalize hcs : g = cs at h'
    cases h' with
    | stop => rfl
    | lexeme hg' hl' =>
      -- the gap would have to be the whole text and to end in front of the lexeme
      have hgap := hg.gap_eq .nil
      rw [List.append_nil, hcs, hg'.gap_eq hl'.startsLexeme] at hgap
      simp [hl'.ne_nil] at hgap
  | @lexeme n g rest l ls hg hl hoffset _ ih =>
    have hgap := hg.gap_eq hl.startsLexeme
    generalize hcs : g ++ (l.chars ++ rest) = cs at h'
    cases h' with
    | stop hg' =>
      rw [hcs, ← List.append_nil cs, hg'.gap_eq .nil] at hgap
      simp [hl.ne_nil] at hgap
    | @lexeme _ g' rest' l' ls' hg' hl' hoffset' h' =>
      rw [hcs, hg'.gap_eq hl'.startsLexeme] at hgap
      obtain ⟨rfl, hmore⟩ := Prod.mk.inj hgap
      obtain ⟨c, more, hc, hcut⟩ := hl.cut_eq
      obtain ⟨c', more', hc', hcut'⟩ := hl'.cut_eq
      rw [hc, hc'] at hmore
      obtain ⟨rfl, rfl⟩ := List.cons.inj hmore
      rw [hcut] at hcut'
      obtain ⟨houtcome, hchars, rfl⟩ := Cut.mk.inj hcut'
      have hsame : l = l' := by
        rcases l with ⟨offset, chars, outcome⟩
        rcases l' with ⟨offset', chars', outcome'⟩
        simp only at hoffset hoffset' houtcome hchars
        rw [hoffset, hoffset', houtcome, hchars]
      subst hsame
      rw [ih h']

theorem run_eq (h : Tiles n cs ls) (loc : Location) :
    Scan.run loc cs =
      ⟨ls.map fun l => (loc.advance (cs.take (l.offset - n)), l.outcome), loc.advance cs⟩ := by
  induction h generalizing loc with
  | stop hg =>
    have hgap := hg.gap_eq .nil
    rw [List.append_nil] at hgap
    exact Scan.run_of_gap_nil hgap
  | @lexeme n g rest l ls hg hl hoffset h ih =>
    have hgap := hg.gap_eq hl.startsLexeme
    obtain ⟨c, more, hmore, hcut⟩ := hl.cut_eq
    have hfirst : (g ++ (l.chars ++ rest)).take (l.offset - n) = g := by
      rw [hoffset, Nat.add_sub_cancel_left, List.take_left]
    have hlater : ∀ k ∈ ls, (g ++ (l.chars ++ rest)).take (k.offset - n) =
        g ++ (l.chars ++ rest.take (k.offset - (l.offset + l.chars.length))) := by
      intro k hk
      have hle := h.le_offset hk
      have hsum : k.offset - n =
          g.length + (l.chars.length + (k.offset - (l.offset + l.chars.length))) := by omega
      rw [hsum, List.take_length_add_append, List.take_length_add_append]
    rw [hmore] at hgap
    rw [List.map_cons, hfirst, List.map_congr_left fun k hk => by rw [hlater k hk], hmore,
      Scan.run_of_gap hgap, hcut, ← hmore]
    simp only [ih, Location.advance_append]

end Tiles

end Lexeme
end StackLang
