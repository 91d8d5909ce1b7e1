import StackLang.Proofs.Lexing

/-!
This module contains the spelling of tokens as text that the lexer reads back. A text of spellings
with blanks between them is read as the tokens it spells, and the tokens of any other text can be
spelled that way.
-/

namespace StackLang

namespace Token

def escape (c : Char) : List Char :=
  if c = '\n' then ['\\', 'n']
  else if c = '\t' then ['\\', 't']
  else if c = '\x1b' then ['\\', 'e']
  else if c = '"' then ['\\', '"']
  else if c = '\\' then ['\\', '\\']
  else if c = '\x00' then ['\\', '0']
  else [c]

/-- The token as a program holds it: literals are quoted with the escapes that the lexer knows. -/
def source : Token → List Char
  | str s => '"' :: (s.toList.flatMap escape ++ ['"'])
  | char b => '\'' :: (escape (Char.ofNat b.toNat) ++ ['\''])
  | t => t.spelling.toList

end Token

namespace Lexeme

/-- A text without blanks and punctuation that starts neither a type parameter nor a comment. -/
structure IsWord (cs : List Char) : Prop where
  ne_nil : cs ≠ []
  chars : cs.all isWordChar = true
  param : cs.head? ≠ some '$'
  comment : ¬ ['/', '/'] <+: cs

structure IsName (cs : List Char) : Prop extends IsWord cs where
  digits : cs.all Text.isDigit = false
  numeral : Text.readNumeral? cs = none
  reserved : Token.ofWord? (String.ofList cs) = none

end Lexeme

def Token.Lexable : Token → Prop
  | char b => b.toNat < 128 ∧ b ≠ 39
  | param name => name ≠ "" ∧ name.toList.all (!Text.isBlank ·) = true
  | ident name => Lexeme.IsName name.toList
  | eof => False
  | _ => True

instance (cs : List Char) : Decidable (Lexeme.IsWord cs) :=
  decidable_of_iff
    (cs ≠ [] ∧ cs.all Lexeme.isWordChar = true ∧ cs.head? ≠ some '$' ∧ ¬ ['/', '/'] <+: cs)
    ⟨fun h => ⟨h.1, h.2.1, h.2.2.1, h.2.2.2⟩, fun h => ⟨h.ne_nil, h.chars, h.param, h.comment⟩⟩

instance (cs : List Char) : Decidable (Lexeme.IsName cs) :=
  decidable_of_iff
    (Lexeme.IsWord cs ∧ cs.all Text.isDigit = false ∧ Text.readNumeral? cs = none ∧
      Token.ofWord? (String.ofList cs) = none)
    ⟨fun h => ⟨h.1, h.2.1, h.2.2.1, h.2.2.2⟩,
      fun h => ⟨h.toIsWord, h.digits, h.numeral, h.reserved⟩⟩

instance : DecidablePred Token.Lexable
  | .char _ => inferInstanceAs (Decidable (_ ∧ _))
  | .param _ => inferInstanceAs (Decidable (_ ∧ _))
  | .ident _ => inferInstanceAs (Decidable (Lexeme.IsName _))
  | .eof => .isFalse id
  | .int _ | .str _ | .bool _ | .prim _ | .syscall _ | .kwCast | .kwIf | .kwElse | .kwLoop | .kwLet
  | .kwIn | .decl _ | .type _ | .lparen | .rparen | .arrow => .isTrue trivial

def StartsBlank (cs : List Char) : Prop := ∀ c ∈ cs.head?, Text.isBlank c = true

/-- The text holds the spellings of the tokens, with blanks around them and between any two. -/
inductive Spelled : List Token → List Char → Prop
  | nil : Spelled [] []
  | blank {ts : List Token} {cs : List Char} {c : Char} (hc : Text.isBlank c = true)
      (h : Spelled ts cs) : Spelled ts (c :: cs)
  | token {ts : List Token} {cs : List Char} (t : Token) (hcs : StartsBlank cs)
      (h : Spelled ts cs) : Spelled (t :: ts) (t.source ++ cs)

namespace Text

theorem digitsValue_toDigits (n : Nat) : digitsValue (Nat.toDigits 10 n) = n :=
  Nat.ofDigitChars_ten_toDigits

theorem all_isDigit_toDigits (n : Nat) : (Nat.toDigits 10 n).all isDigit = true := by
  rw [List.all_eq_true]
  intro c hc
  exact Nat.isDigit_of_mem_toDigits (by decide) (by decide) hc

theorem readDigits?_toDigits (n : Nat) : readDigits? (Nat.toDigits 10 n) = word64? n := by
  have hne : Nat.toDigits 10 n ≠ [] := Nat.toDigits_ne_nil
  simp only [readDigits?, all_isDigit_toDigits, digitsValue_toDigits]
  simp [hne]

theorem readNumeral?_minus_toDigits (n : Nat) :
    readNumeral? ('-' :: Nat.toDigits 10 n) = word64? (-(n : Int)) := by
  have hne : Nat.toDigits 10 n ≠ [] := Nat.toDigits_ne_nil
  simp only [readNumeral?, all_isDigit_toDigits, digitsValue_toDigits]
  simp [hne]

theorem word64?_toInt (n : Int64) : word64? n.toInt = some n := by
  rw [word64?, if_pos ⟨n.minValue_le_toInt, n.toInt_le⟩, Int64.ofInt_toInt]

theorem readNumeral?_eq_none {ds : List Char} (h : ds.all isDigit = false)
    (hminus : ds.head? ≠ some '-') : readNumeral? ds = none := by
  unfold readNumeral?
  split
  · simp at hminus
  · simp [readDigits?, h]

end Text

namespace Lexeme

theorem content_escape {quote c : Char} (h : c ≠ quote ∨ c = '"') (cs : List Char) :
    content quote (Token.escape c ++ cs) =
      ⟨c :: (content quote cs).chars, Token.escape c ++ (content quote cs).taken,
        (content quote cs).rest, (content quote cs).ending⟩ := by
  unfold Token.escape
  split
  · next heq =>
    subst heq
    exact content_escaped quote 'n' cs
  split
  · next heq =>
    subst heq
    exact content_escaped quote 't' cs
  split
  · next heq =>
    subst heq
    exact content_escaped quote 'e' cs
  split
  · next heq =>
    subst heq
    exact content_escaped quote '"' cs
  split
  · next heq =>
    subst heq
    exact content_escaped quote '\\' cs
  split
  · next heq =>
    subst heq
    exact content_escaped quote '0' cs
  · next hnewline _ _ hquote hbackslash _ =>
    have hc : c ≠ quote := h.resolve_right hquote
    exact (content_cons hbackslash cs).trans (by rw [if_neg hc, if_neg hnewline]; rfl)

theorem content_spelled {quote : Char} (hquote : quote ≠ '\\') {s : List Char}
    (h : ∀ c ∈ s, c ≠ quote ∨ c = '"') (rest : List Char) :
    content quote (s.flatMap Token.escape ++ quote :: rest) =
      ⟨s, s.flatMap Token.escape ++ [quote], rest, .quote⟩ := by
  induction s with
  | nil =>
    rw [List.flatMap_nil, List.nil_append, content_cons hquote, if_pos rfl]
    rfl
  | cons c s ih =>
    obtain ⟨hc, hs⟩ := List.forall_mem_cons.mp h
    rw [List.flatMap_cons, List.append_assoc, content_escape hc, ih hs, List.append_assoc]

theorem not_isWordChar_of_isBlank {c : Char} (h : Text.isBlank c = true) :
    isWordChar c = false := by
  simp [isWordChar, h]

theorem takeWhile_append_of_stop {p : Char → Bool} {cs rest : List Char} (hcs : cs.all p = true)
    (hrest : ∀ c ∈ rest.head?, p c = false) :
    (cs ++ rest).takeWhile p = cs ∧ (cs ++ rest).dropWhile p = rest := by
  rw [List.all_eq_true] at hcs
  rw [List.takeWhile_append_of_pos hcs, List.dropWhile_append_of_pos hcs]
  cases rest with
  | nil => simp
  | cons c rest => simp [hrest c rfl]

theorem isWordChar_of_isDigit {c : Char} (h : Text.isDigit c = true) : isWordChar c = true := by
  have hne : ∀ d, Text.isDigit d = false → c ≠ d := by
    rintro d hd rfl
    simp [h] at hd
  simp only [Text.isDigit, Bool.and_eq_true, decide_eq_true_eq] at h
  have hlower : 48 ≤ c.toNat := h.1
  have hupper : c.toNat ≤ 57 := h.2
  have hblank : Text.isBlank c = false := by
    unfold Text.isBlank
    grind
  simp [isWordChar, isPunctuation, hblank, hne '(' (by decide), hne ')' (by decide),
    hne '"' (by decide), hne '\'' (by decide)]

theorem isWord_of_digits {ds : List Char} (hne : ds ≠ []) (h : ds.all Text.isDigit = true) :
    IsWord ds := by
  cases ds with
  | nil => exact absurd rfl hne
  | cons d ds =>
    have hd := List.all_eq_true.mp h d List.mem_cons_self
    refine ⟨hne, ?_, ?_, ?_⟩
    · rw [List.all_eq_true] at h ⊢
      exact fun c hc => isWordChar_of_isDigit (h c hc)
    · rintro ⟨⟩
      exact absurd hd (by decide)
    · apply not_comment_of_ne
      rintro rfl
      exact absurd hd (by decide)

theorem isWord_minus {ds : List Char} (h : ds.all Text.isDigit = true) : IsWord ('-' :: ds) := by
  refine ⟨by simp, ?_, by simp, not_comment_of_ne (by decide) ds⟩
  rw [List.all_eq_true] at h ⊢
  intro c hc
  rcases List.mem_cons.mp hc with rfl | hc
  · decide
  · exact isWordChar_of_isDigit (h c hc)

def readWord (word : List Char) : Except LexicalFault Token :=
  if word.head?.any Text.isDigit then digitWordToken word else .ok (wordToken word)

theorem cut_word {c : Char} {word rest : List Char} (h : IsWord (c :: word))
    (hrest : ∀ d ∈ rest.head?, isWordChar d = false) :
    cut c (word ++ rest) = ⟨readWord (c :: word), c :: word, rest⟩ := by
  have hchars := h.chars
  rw [List.all_cons, Bool.and_eq_true] at hchars
  obtain ⟨hc, hword⟩ := hchars
  have hparam : c ≠ '$' := by simpa using h.param
  simp only [isWordChar, isPunctuation, Bool.and_eq_true, Bool.not_eq_true', Bool.or_eq_false_iff,
    decide_eq_false_iff_not] at hc
  obtain ⟨htake, hdrop⟩ := takeWhile_append_of_stop hword hrest
  unfold cut
  rw [if_neg hc.2.1.1.1, if_neg hc.2.1.1.2, if_neg hc.2.1.2, if_neg hc.2.2, if_neg hparam, cutWord,
    htake, hdrop]
  rfl

theorem IsWord.isBlank {c : Char} {word : List Char} (h : IsWord (c :: word)) :
    Text.isBlank c = false := by
  have hc : isWordChar c = true := List.all_eq_true.mp h.chars c List.mem_cons_self
  simpa [isWordChar] using (Bool.and_eq_true_iff.mp hc).1

theorem IsWord.not_comment {word rest : List Char} (h : IsWord word)
    (hrest : ∀ c ∈ rest.head?, isWordChar c = false) : ¬ ['/', '/'] <+: word ++ rest := by
  intro hcomment
  apply h.comment
  obtain ⟨c, word, rfl⟩ := List.exists_cons_of_ne_nil h.ne_nil
  obtain ⟨more, hmore⟩ := hcomment
  cases word with
  | nil =>
    simp only [List.cons_append, List.nil_append, List.cons.injEq] at hmore
    rw [← hmore.2] at hrest
    exact absurd (hrest '/' rfl) (by decide)
  | cons d word =>
    simp only [List.cons_append, List.nil_append, List.cons.injEq] at hmore
    rw [← hmore.1, ← hmore.2.1]
    exact ⟨word, rfl⟩

end Lexeme

namespace Token

/-- The lexer takes the spelling of the token and no more, if the text goes on with a blank. -/
def IsCut (t : Token) : Prop :=
  ∀ rest, StartsBlank rest → ∃ c more, t.source ++ rest = c :: more ∧
    Lexeme.gap false (c :: more) = ([], c :: more) ∧ (Lexeme.cut c more).outcome = .ok t ∧
    (Lexeme.cut c more).rest = rest

theorem isCut_of_word {t : Token} (h : Lexeme.IsWord t.source)
    (hread : Lexeme.readWord t.source = .ok t) : t.IsCut := by
  intro rest hrest
  cases hsource : t.source with
  | nil => exact absurd hsource h.ne_nil
  | cons c word =>
    rw [hsource] at h hread
    have hstop : ∀ d ∈ rest.head?, Lexeme.isWordChar d = false :=
      fun d hd => Lexeme.not_isWordChar_of_isBlank (hrest d hd)
    refine ⟨c, word ++ rest, rfl, Lexeme.gap_eq_nil h.isBlank (h.not_comment hstop), ?_⟩
    rw [Lexeme.cut_word h hstop]
    exact ⟨hread, rfl⟩

theorem isCut_str (s : String) : (str s).IsCut := by
  intro rest hrest
  have hcontent : Lexeme.content '"' (s.toList.flatMap escape ++ '"' :: rest) =
      ⟨s.toList, s.toList.flatMap escape ++ ['"'], rest, .quote⟩ :=
    Lexeme.content_spelled (by decide) (fun c _ => (Decidable.em (c = '"')).symm) rest
  refine ⟨'"', s.toList.flatMap escape ++ '"' :: rest, by simp [source], ?_, ?_⟩
  · exact Lexeme.gap_eq_nil (by decide) (Lexeme.not_comment_of_ne (by decide) _)
  · rw [show Lexeme.cut '"' _ = Lexeme.cutString _ from rfl, Lexeme.cutString, hcontent]
    exact ⟨congrArg (Except.ok ∘ str) String.ofList_toList, rfl⟩

theorem isCut_char {b : UInt8} (h : (char b).Lexable) : (char b).IsCut := by
  intro rest hrest
  obtain ⟨hb, hquote⟩ := h
  have hvalid : b.toNat.isValidChar := Or.inl (by omega)
  have htoNat : (Char.ofNat b.toNat).toNat = b.toNat := by
    rw [Char.ofNat, dif_pos hvalid]
    rfl
  have hchar : Char.ofNat b.toNat ≠ '\'' := by
    intro heq
    rw [heq] at htoNat
    exact hquote (UInt8.toNat_inj.mp htoNat.symm)
  have hcontent : Lexeme.content '\'' (escape (Char.ofNat b.toNat) ++ '\'' :: rest) =
      ⟨[Char.ofNat b.toNat], escape (Char.ofNat b.toNat) ++ ['\''], rest, .quote⟩ := by
    rw [Lexeme.content_escape (Or.inl hchar), Lexeme.content_cons (by decide), if_pos rfl]
  refine ⟨'\'', escape (Char.ofNat b.toNat) ++ '\'' :: rest, by simp [source], ?_, ?_⟩
  · exact Lexeme.gap_eq_nil (by decide) (Lexeme.not_comment_of_ne (by decide) _)
  · rw [show Lexeme.cut '\'' _ = Lexeme.cutChar _ from rfl, Lexeme.cutChar, hcontent]
    refine ⟨?_, rfl⟩
    simp only [Lexeme.charToken, htoNat, if_pos hb]
    exact congrArg (Except.ok ∘ char) UInt8.ofNat_toNat

theorem isCut_param {name : String} (h : (param name).Lexable) : (param name).IsCut := by
  intro rest hrest
  obtain ⟨hname, hchars⟩ := h
  obtain ⟨htake, hdrop⟩ : (name.toList ++ rest).takeWhile (!Text.isBlank ·) = name.toList ∧
      (name.toList ++ rest).dropWhile (!Text.isBlank ·) = rest :=
    Lexeme.takeWhile_append_of_stop hchars fun c hc => by simp [hrest c hc]
  refine ⟨'$', name.toList ++ rest, by simp [source, spelling], ?_, ?_⟩
  · exact Lexeme.gap_eq_nil (by decide) (Lexeme.not_comment_of_ne (by decide) _)
  · rw [show Lexeme.cut '$' _ = Lexeme.cutParam _ from rfl, Lexeme.cutParam, htake, hdrop]
    simp [hname]

theorem isCut_of_mem_reserved {t : Token} (h : t ∈ reserved)
    (hsource : t.source = t.spelling.toList) : t.IsCut := by
  have hword : ∀ t ∈ reserved, Lexeme.IsWord t.spelling.toList := by decide +kernel
  have hdigit : ∀ t ∈ reserved, t.spelling.toList.head?.any Text.isDigit = false := by
    decide +kernel
  have hfound : ∀ t ∈ reserved, ofWord? t.spelling = some t := by decide +kernel
  apply isCut_of_word
  · rw [hsource]
    exact hword t h
  · rw [hsource, Lexeme.readWord, hdigit t h, Lexeme.wordToken, String.ofList_toList]
    simp only [hfound t h, Bool.false_eq_true, if_false]

theorem isCut_ident {name : String} (h : (ident name).Lexable) : (ident name).IsCut := by
  have hname : Lexeme.IsName (ident name).source := h
  have hreserved : ofWord? name = none := by simpa using h.reserved
  apply isCut_of_word hname.toIsWord
  simp only [Lexeme.readWord, Lexeme.digitWordToken, Lexeme.wordToken, hname.digits, hname.numeral]
  simp [source, spelling, hreserved]

theorem ofWord?_minus {d : Char} (h : Text.isDigit d = true) (ds : List Char) :
    ofWord? (String.ofList ('-' :: d :: ds)) = none := by
  have hall : ∀ t ∈ reserved, t.spelling.toList.head? = some '-' →
      t.spelling.toList.tail.head?.any Text.isDigit = false := by
    decide +kernel
  rw [ofWord?, List.find?_eq_none]
  intro t ht hspelling
  rw [decide_eq_true_eq] at hspelling
  have hdigit := hall t ht
  rw [hspelling, String.toList_ofList] at hdigit
  simp [h] at hdigit

theorem source_int (n : Int64) :
    (int n).source =
      if 0 ≤ n.toInt then Nat.toDigits 10 n.toInt.toNat
      else '-' :: Nat.toDigits 10 (-n.toInt).toNat := by
  have hsource : (int n).source = (toString n.toInt).toList := rfl
  rw [hsource, Int.toString_eq_repr, Int.repr_eq_if]
  split <;> simp [Nat.repr_eq_ofList_toDigits]

theorem isCut_int (n : Int64) : (int n).IsCut := by
  have hsource := source_int n
  split at hsource
  · next hn =>
    have hdigits := Text.all_isDigit_toDigits n.toInt.toNat
    have hword := Lexeme.isWord_of_digits Nat.toDigits_ne_nil hdigits
    have hread : Text.readDigits? (Nat.toDigits 10 n.toInt.toNat) = some n := by
      rw [Text.readDigits?_toDigits, Int.toNat_of_nonneg hn, Text.word64?_toInt]
    apply isCut_of_word
    · rw [hsource]
      exact hword
    · rw [hsource]
      cases hds : Nat.toDigits 10 n.toInt.toNat with
      | nil => exact absurd hds Nat.toDigits_ne_nil
      | cons d ds =>
        rw [hds] at hdigits hread
        have hd : Text.isDigit d = true := List.all_eq_true.mp hdigits d List.mem_cons_self
        simp only [Lexeme.readWord, Lexeme.digitWordToken, List.head?_cons, Option.any_some, hd,
          hdigits, hread, if_true]
  · next hn =>
    have hdigits := Text.all_isDigit_toDigits (-n.toInt).toNat
    have hread : Text.readNumeral? ('-' :: Nat.toDigits 10 (-n.toInt).toNat) = some n := by
      rw [Text.readNumeral?_minus_toDigits, Int.toNat_of_nonneg (by omega), Int.neg_neg,
        Text.word64?_toInt]
    cases hds : Nat.toDigits 10 (-n.toInt).toNat with
    | nil => exact absurd hds Nat.toDigits_ne_nil
    | cons d ds =>
      rw [hds] at hsource hdigits hread
      have hd : Text.isDigit d = true := List.all_eq_true.mp hdigits d List.mem_cons_self
      apply isCut_of_word
      · rw [hsource]
        exact Lexeme.isWord_minus hdigits
      · rw [hsource]
        simp only [Lexeme.readWord, Lexeme.wordToken, List.head?_cons, Option.any_some,
          ofWord?_minus hd, hread]
        rfl

theorem Lexable.isCut {t : Token} (h : t.Lexable) : t.IsCut := by
  cases t with
  | int n => exact isCut_int n
  | str s => exact isCut_str s
  | char b => exact isCut_char h
  | param name => exact isCut_param h
  | ident name => exact isCut_ident h
  | eof => exact h.elim
  | lparen | rparen =>
    intro rest hrest
    refine ⟨_, rest, rfl, ?_, rfl, rfl⟩
    exact Lexeme.gap_eq_nil (by decide) (Lexeme.not_comment_of_ne (by decide) _)
  | bool b => exact isCut_of_mem_reserved (by cases b <;> decide) rfl
  | prim p =>
    have hmem := p.mem_all
    exact isCut_of_mem_reserved (by simp [reserved, hmem]) rfl
  | syscall n => exact isCut_of_mem_reserved (by simp [reserved]) rfl
  | decl d => exact isCut_of_mem_reserved (by cases d <;> decide) rfl
  | type ty => exact isCut_of_mem_reserved (by cases ty <;> decide) rfl
  | kwCast | kwIf | kwElse | kwLoop | kwLet | kwIn | arrow =>
    exact isCut_of_mem_reserved (by decide) rfl

end Token

namespace Lexeme

/-- A character literal never holds a single quote, which ends it or leaves its backslash there. -/
theorem ne_quote_of_content {cs : List Char} {c : Char} (h : (content '\'' cs).chars = [c]) :
    c ≠ '\'' := by
  rw [content.eq_def] at h
  split at h
  · simp at h
  · simp only [List.cons.injEq, and_true] at h
    rw [← h]
    decide
  · next d cs =>
    have hlength := congrArg List.length h
    simp only [unescape] at h hlength
    grind
  · next d cs _ _ =>
    split at h
    · simp at h
    · split at h
      · simp at h
      · next hd _ =>
        simp only [List.cons.injEq] at h
        rw [← h.1]
        exact hd

theorem lexable_of_ofWord? {name : String} {t : Token} (h : Token.ofWord? name = some t) :
    t.Lexable := by
  have hall : ∀ t ∈ Token.reserved, t.Lexable := by decide
  exact hall t (List.mem_of_find?_eq_some h)

theorem lexable_of_charToken {cs : List Char} {t : Token}
    (h : charToken (content '\'' cs).chars = .ok t) : t.Lexable := by
  unfold charToken at h
  split at h
  · simp at h
  · next c hc =>
    split at h
    · next hlt =>
      rw [← Except.ok.inj h]
      have htoNat : c.toNat.toUInt8.toNat = c.toNat :=
        UInt8.toNat_ofNat_of_lt (Nat.lt_trans hlt (by decide))
      refine ⟨by rw [htoNat]; exact hlt, ?_⟩
      intro hquote
      rw [hquote] at htoNat
      exact ne_quote_of_content hc (Char.toNat_inj.mp htoNat.symm)
    · simp at h
  · simp at h

theorem lexable_ident {word : List Char} (h : IsName word) :
    (Token.ident (String.ofList word)).Lexable := by
  show IsName (String.ofList word).toList
  rw [String.toList_ofList]
  exact h

theorem lexable_of_readWord {word : List Char} {t : Token} (hword : IsWord word)
    (h : readWord word = .ok t) : t.Lexable := by
  have hname : word.all Text.isDigit = false → Text.readNumeral? word = none →
      Token.ofWord? (String.ofList word) = none → (Token.ident (String.ofList word)).Lexable := by
    intro hdigits hnumeral hreserved
    exact lexable_ident ⟨hword, hdigits, hnumeral, hreserved⟩
  unfold readWord at h
  split at h
  · next hhead =>
    unfold digitWordToken at h
    split at h
    · split at h
      · rw [← Except.ok.inj h]
        trivial
      · simp at h
    · next hdigits =>
      rw [Bool.not_eq_true] at hdigits
      have hminus : word.head? ≠ some '-' := by
        intro hminus
        rw [hminus] at hhead
        exact absurd hhead (by decide)
      rw [← Except.ok.inj h]
      cases hreserved : Token.ofWord? (String.ofList word) with
      | some t => exact lexable_of_ofWord? hreserved
      | none => exact hname hdigits (Text.readNumeral?_eq_none hdigits hminus) hreserved
  · next hhead =>
    have hdigits : word.all Text.isDigit = false := by
      cases word with
      | nil => exact absurd rfl hword.ne_nil
      | cons c word =>
        have hc : Text.isDigit c = false := by simpa using hhead
        rw [List.all_cons, hc, Bool.false_and]
    rw [← Except.ok.inj h, wordToken]
    cases hreserved : Token.ofWord? (String.ofList word) with
    | some t => exact lexable_of_ofWord? hreserved
    | none =>
      cases hnumeral : Text.readNumeral? word with
      | some n => trivial
      | none => exact hname hdigits hnumeral hreserved

theorem isWord_cut {c : Char} {cs : List Char} (hc : Text.isBlank c = false)
    (hpunctuation : isPunctuation c = false) (hparam : c ≠ '$') (hcs : ¬ ['/', '/'] <+: c :: cs) :
    IsWord (c :: cs.takeWhile isWordChar) := by
  refine ⟨by simp, ?_, by simpa using hparam, ?_⟩
  · rw [List.all_cons, isWordChar, hc, hpunctuation, List.all_takeWhile]
    rfl
  · intro hcomment
    apply hcs
    apply hcomment.trans
    rw [List.prefix_cons_inj]
    exact List.takeWhile_prefix isWordChar

theorem lexable_of_cut {c : Char} {cs : List Char} {t : Token} (hc : Text.isBlank c = false)
    (hcs : ¬ ['/', '/'] <+: c :: cs) (h : (cut c cs).outcome = .ok t) : t.Lexable := by
  unfold cut at h
  split at h
  · rw [← Except.ok.inj h]
    trivial
  split at h
  · rw [← Except.ok.inj h]
    trivial
  split at h
  · simp only [cutString] at h
    split at h
    · rw [← Except.ok.inj h]
      trivial
    · simp at h
    · simp at h
  split at h
  · simp only [cutChar] at h
    split at h
    · exact lexable_of_charToken h
    · simp at h
    · simp at h
  split at h
  · simp only [cutParam] at h
    split at h
    · simp at h
    · next hname =>
      rw [← Except.ok.inj h]
      refine ⟨?_, ?_⟩
      · simpa using hname
      · rw [String.toList_ofList, List.all_takeWhile]
  · next hlparen hrparen hquote hchar hparam =>
    have hpunctuation : isPunctuation c = false := by
      simp [isPunctuation, hlparen, hrparen, hquote, hchar]
    exact lexable_of_readWord (isWord_cut hc hpunctuation hparam hcs) h

end Lexeme

namespace Scan

theorem outcomes_of_spelled {ts : List Token} {cs : List Char} (h : Spelled ts cs)
    (hts : ∀ t ∈ ts, t.Lexable) (loc : Location) :
    (run loc cs).found.map (·.2) = ts.map .ok := by
  induction h generalizing loc with
  | nil =>
    rw [run_of_gap_nil (g := []) rfl]
    rfl
  | blank hc h ih =>
    rw [run_blank hc]
    exact ih hts _
  | token t hcs h ih =>
    obtain ⟨ht, hts⟩ := List.forall_mem_cons.mp hts
    obtain ⟨c, more, hsource, hgap, hcut, hrest⟩ := ht.isCut _ hcs
    rw [hsource, run_of_gap hgap, hcut, hrest, List.map_cons, List.map_cons, ih hts]

theorem lexable_of_mem {loc start : Location} {cs : List Char} {t : Token}
    (h : (start, .ok t) ∈ (run loc cs).found) : t.Lexable := by
  fun_induction run loc cs with
  | case1 => simp at h
  | case2 loc cs g c rest hgap _ start' lexeme after ih =>
    simp only [List.mem_cons, Prod.mk.injEq] at h
    rcases h with ⟨-, heq⟩ | h
    · exact Lexeme.lexable_of_cut (Lexeme.isBlank_of_gap hgap) (Lexeme.not_comment_of_gap hgap)
        heq.symm
    · exact ih h

end Scan

namespace TokenStream

theorem lexable_of_mem {file text : String} {stream : TokenStream}
    (h : ofText file text = .ok stream) {t : Token} (ht : t ∈ stream.lexemes.map (·.token)) :
    t.Lexable := by
  have hfound : .ok t ∈ (Scan.run (Location.start file) text.toList).found.map (·.2) := by
    rw [outcomes_of_ofText h]
    exact List.mem_map_of_mem ht
  obtain ⟨⟨start, _⟩, hmem, rfl⟩ := List.mem_map.mp hfound
  exact Scan.lexable_of_mem hmem

theorem ofText_of_spelled (file : String) {text : String} {ts : List Token}
    (h : Spelled ts text.toList) (hts : ∀ t ∈ ts, t.Lexable) :
    ∃ stream, ofText file text = .ok stream ∧ stream.toList.map (·.token) = ts ++ [.eof] := by
  obtain ⟨stream, hstream, htokens⟩ := exists_of_outcomes (Scan.outcomes_of_spelled h hts _)
  refine ⟨stream, hstream, ?_⟩
  rw [toList, List.map_append, htokens]
  rfl

end TokenStream

/--
The lexer reads a text that spells tokens it can produce as these tokens, however they are set
apart. The tokens of any text, spelled that way, are read again as the same tokens.
-/
theorem lexing_undoes_spelling :
    (∀ t : Token, t.Lexable ↔ ∃ file text stream,
      TokenStream.ofText file text = .ok stream ∧ t ∈ stream.lexemes.map (·.token)) ∧
    (∀ (file text : String) (ts : List Token), (∀ t ∈ ts, t.Lexable) → Spelled ts text.toList →
      ∃ stream, TokenStream.ofText file text = .ok stream ∧
        stream.toList.map (·.token) = ts ++ [.eof]) ∧
    ∀ (file text : String) (stream : TokenStream), TokenStream.ofText file text = .ok stream →
      ∀ file' text', Spelled (stream.lexemes.map (·.token)) text'.toList →
        ∃ stream', TokenStream.ofText file' text' = .ok stream' ∧
          stream'.toList.map (·.token) = stream.toList.map (·.token) := by
  refine ⟨?_, ?_, ?_⟩
  · intro t
    constructor
    · intro ht
      have hspelled : Spelled [t] (String.ofList (t.source ++ [])).toList := by
        rw [String.toList_ofList]
        exact .token t (by simp [StartsBlank]) .nil
      obtain ⟨stream, hstream, htokens⟩ :=
        TokenStream.ofText_of_spelled "" hspelled (by simpa using ht)
      refine ⟨_, _, stream, hstream, ?_⟩
      rw [TokenStream.toList, List.map_append] at htokens
      rw [List.append_cancel_right htokens]
      exact List.mem_singleton_self t
    · rintro ⟨file, text, stream, hstream, ht⟩
      exact TokenStream.lexable_of_mem hstream ht
  · intro file text ts hts hspelled
    exact TokenStream.ofText_of_spelled file hspelled hts
  · intro file text stream hstream file' text' hspelled
    obtain ⟨stream', hstream', htokens⟩ := TokenStream.ofText_of_spelled file' hspelled
      fun t ht => TokenStream.lexable_of_mem hstream ht
    refine ⟨stream', hstream', ?_⟩
    rw [htokens, TokenStream.toList, List.map_append]
    rfl

theorem Spelled.before {t : Token} {ts : List Token} {c : Char} {cs : List Char}
    (hc : Text.isBlank c = true) (h : Spelled ts cs) : Spelled (t :: ts) (t.source ++ c :: cs) := by
  refine .token t ?_ (.blank hc h)
  intro d hd
  rw [← Option.some.inj hd]
  exact hc

def mixed : List Token :=
  [.int (-5), .str "a\"'\n", .char 34, .param "x(", .ident "a//b", .prim .div]

theorem lexing_undoes_spelling_mixed : ∃ stream stream',
    TokenStream.ofText "a.cin" "-5 \"a\\\"'\\n\" '\\\"' $x( a//b /" = .ok stream ∧
      stream.toList.map (·.token) = mixed ++ [.eof] ∧
      TokenStream.ofText "b.cin" "\n-5\t\"a\\\"'\\n\"\n'\\\"' $x(\na//b / " = .ok stream' ∧
      stream'.toList.map (·.token) = stream.toList.map (·.token) := by
  have hlexable : ∀ t ∈ mixed, t.Lexable := by decide +kernel
  have hspace : Text.isBlank ' ' = true := by decide
  have hline : Text.isBlank '\n' = true := by decide
  have htab : Text.isBlank '\t' = true := by decide
  have hfirst : Spelled mixed "-5 \"a\\\"'\\n\" '\\\"' $x( a//b /".toList := by
    have htext : "-5 \"a\\\"'\\n\" '\\\"' $x( a//b /".toList =
        (Token.int (-5)).source ++ ' ' :: ((Token.str "a\"'\n").source ++ ' ' ::
          ((Token.char 34).source ++ ' ' :: ((Token.param "x(").source ++ ' ' ::
            ((Token.ident "a//b").source ++ ' ' :: ((Token.prim .div).source ++ []))))) := by
      decide +kernel
    rw [htext]
    exact .before hspace (.before hspace (.before hspace (.before hspace (.before hspace
      (.token _ (by simp [StartsBlank]) .nil)))))
  have hsecond : Spelled mixed "\n-5\t\"a\\\"'\\n\"\n'\\\"' $x(\na//b / ".toList := by
    have htext : "\n-5\t\"a\\\"'\\n\"\n'\\\"' $x(\na//b / ".toList =
        '\n' :: ((Token.int (-5)).source ++ '\t' :: ((Token.str "a\"'\n").source ++ '\n' ::
          ((Token.char 34).source ++ ' ' :: ((Token.param "x(").source ++ '\n' ::
            ((Token.ident "a//b").source ++ ' ' ::
              ((Token.prim .div).source ++ ' ' :: [])))))) := by
      decide +kernel
    rw [htext]
    exact .blank hline (.before htab (.before hline (.before hspace (.before hline (.before hspace
      (.before hspace .nil))))))
  obtain ⟨stream, hstream, htokens⟩ := lexing_undoes_spelling.2.1 "a.cin" _ mixed hlexable hfirst
  have hmixed : stream.lexemes.map (·.token) = mixed := by
    rw [TokenStream.toList, List.map_append] at htokens
    exact List.append_cancel_right htokens
  obtain ⟨stream', hstream', hsame⟩ :=
    lexing_undoes_spelling.2.2 "a.cin" _ stream hstream "b.cin" _ (by rw [hmixed]; exact hsecond)
  exact ⟨stream, stream', hstream, htokens, hstream', hsame⟩

end StackLang
