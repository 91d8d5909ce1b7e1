import StackLang.Proofs.Positions
import StackLang.Token.Dump

/-!
This module contains what the text of a string literal may hold: every line feed in it is escaped,
and a line feed that is not escaped breaks the literal off.
-/

namespace StackLang

namespace Lexeme

theorem tokenClass_of_ofWord? {name : String} {t : Token} (h : Token.ofWord? name = some t) :
    t.tokenClass ≠ .str := by
  have hall : ∀ t ∈ Token.reserved, t.tokenClass ≠ .str := by decide
  exact hall t (List.mem_of_find?_eq_some h)

theorem readWord_ne_str (word : List Char) (s : String) : readWord word ≠ .ok (.str s) := by
  intro h
  unfold readWord at h
  split at h
  · unfold digitWordToken at h
    split at h
    · split at h <;> simp at h
    · cases hreserved : Token.ofWord? (String.ofList word) with
      | none => simp [hreserved] at h
      | some t =>
        obtain rfl : t = .str s := by simpa [hreserved] using h
        exact tokenClass_of_ofWord? hreserved rfl
  · unfold wordToken at h
    simp only at h
    split at h
    · next t hreserved =>
      obtain rfl : t = .str s := by simpa using h
      exact tokenClass_of_ofWord? hreserved rfl
    · split at h <;> simp at h

theorem charToken_ne_str (chars : List Char) (s : String) : charToken chars ≠ .ok (.str s) := by
  unfold charToken
  split
  · simp
  · split <;> simp
  · simp

theorem Denotes.eq_of_str {taken rest : List Char} {s : String}
    (h : Denotes taken rest (.ok (.str s))) :
    ∃ body, Quoted '"' body s.toList ∧ taken = '"' :: (body ++ ['"']) := by
  generalize ho : Except.ok (Token.str s) = o at h
  cases h with
  | lparen | rparen | nameless | param => simp at ho
  | closed l h =>
    cases l with
    | string =>
      simp only [Literal.outcome, Except.ok.injEq, Token.str.injEq] at ho
      rw [ho, String.toList_ofList]
      exact ⟨_, h, rfl⟩
    | char => exact absurd ho.symm (charToken_ne_str _ s)
  | broken l | unclosed l => cases l <;> simp [Literal.outcome] at ho
  | word => exact absurd ho.symm (readWord_ne_str _ s)

theorem Tiles.outcome_of_feed {n : Nat} {cs : List Char} {ls : List Placed} (h : Tiles n cs ls)
    {l : Placed} (hl : l ∈ ls) {body chars after : List Char} (hbody : Quoted '"' body chars)
    (hdrop : cs.drop (l.offset - n) = '"' :: (body ++ '\n' :: after)) :
    l.outcome = .error .newlineInString := by
  obtain ⟨rest, hrest, hdenotes⟩ := h.drop_offset hl
  obtain ⟨c, more, hmore, hcut⟩ := hdenotes.cut_eq
  rw [hrest, hmore] at hdrop
  obtain ⟨rfl, rfl⟩ := List.cons.inj hdrop
  have hbroken := Quoted.cut_broken (l := .string) hbody after
  change cut '"' _ = _ at hbroken
  rw [hcut] at hbroken
  exact (Cut.mk.inj hbroken).1

end Lexeme

open Lexeme

/--
A string in a text without errors is what stands between two quotes, where each line feed comes
right after a backslash that starts an escape. A line feed before the closing quote that is not
escaped is an error.
-/
theorem newlines_in_strings_are_escaped (file text : String) :
    (∀ stream, TokenStream.ofText file text = .ok stream →
      ∀ t ∈ stream.lexemes, ∀ s, t.token = .str s →
        ∃ before body after, text.toList = before ++ '"' :: (body ++ '"' :: after) ∧
          t.loc = Location.ofOffset file text.toList before.length ∧ Quoted '"' body s.toList ∧
          ∀ front back, body = front ++ '\n' :: back →
            ∃ start chars, Quoted '"' start chars ∧ front = start ++ ['\\']) ∧
    ∀ ls, Tiles 0 text.toList ls → ∀ l ∈ ls, ∀ body chars after, Quoted '"' body chars →
      text.toList.drop l.offset = '"' :: (body ++ '\n' :: after) →
        ∃ es, TokenStream.ofText file text = .error es ∧
          ⟨Location.ofOffset file text.toList l.offset, .newlineInString⟩ ∈ es := by
  constructor
  · intro stream hstream t ht s hs
    obtain ⟨ls, hls⟩ := exists_tiles 0 text.toList
    obtain ⟨l, hl, hloc, houtcome⟩ := hls.exists_placed hstream ht
    obtain ⟨rest, hdrop, hdenotes⟩ := hls.drop_offset hl
    rw [houtcome, hs] at hdenotes
    obtain ⟨body, hbody, hchars⟩ := hdenotes.eq_of_str
    refine ⟨text.toList.take l.offset, body, rest, ?_, ?_, hbody, ?_⟩
    · have hsplit := List.take_append_drop l.offset text.toList
      rw [Nat.sub_zero, hchars] at hdrop
      rw [hdrop] at hsplit
      exact hsplit.symm.trans (by simp)
    · have hle := hls.offset_le hl
      rw [hloc, List.length_take_of_le (by omega)]
    · intro front back hfront
      exact hbody.eq_concat_of_feed hfront
  · intro ls hls l hl body chars after hbody hdrop
    exact hls.exists_error hl (hls.outcome_of_feed hl hbody hdrop)

/-- A string that goes on in the next line, which would be a comment outside of the string. -/
def spanning : String := "\"a\\\n//\""

theorem quoted_spanning : Quoted '"' ['a', '\\', '\n', '/', '/'] ['a', '\\', '\n', '/', '/'] := by
  refine .plain (by decide) (by decide) (by decide) (.escape '\n' ?_)
  exact .plain (by decide) (by decide) (by decide) (.plain (by decide) (by decide) (by decide) .nil)

theorem ofText_spanning : TokenStream.ofText "t.cin" spanning =
    .ok ⟨[⟨⟨"t.cin", 1, 1⟩, .str "a\\\n//"⟩], ⟨"t.cin", 2, 4⟩⟩ := by
  have hdenotes : Denotes ('"' :: (['a', '\\', '\n', '/', '/'] ++ ['"'])) [] _ :=
    .closed .string quoted_spanning
  have htiles := Tiles.lexeme (n := 0) (l := ⟨0, _, _⟩) .nil hdenotes rfl (.stop .nil)
  have hrun : Scan.run (Location.start "t.cin") spanning.toList =
      ⟨[(⟨"t.cin", 1, 1⟩, .ok (.str "a\\\n//"))], ⟨"t.cin", 2, 4⟩⟩ := htiles.run_eq _
  unfold TokenStream.ofText
  simp only
  rw [hrun]
  rfl

def cutOff : String := "\"a\n"

theorem newlines_in_strings_are_escaped_spanning :
    (∃ stream t before body after, TokenStream.ofText "t.cin" spanning = .ok stream ∧
      t ∈ stream.lexemes ∧ t.token = .str "a\\\n//" ∧
      spanning.toList = before ++ '"' :: (body ++ '"' :: after) ∧
      t.loc = Location.ofOffset "t.cin" spanning.toList before.length ∧
      ∀ front back, body = front ++ '\n' :: back →
        ∃ start chars, Quoted '"' start chars ∧ front = start ++ ['\\']) ∧
    ∃ es, TokenStream.ofText "t.cin" cutOff = .error es ∧
      ⟨⟨"t.cin", 1, 1⟩, .newlineInString⟩ ∈ es := by
  constructor
  · obtain ⟨before, body, after, htext, hloc, -, hfeeds⟩ :=
      (newlines_in_strings_are_escaped "t.cin" spanning).1 _ ofText_spanning _
        (List.mem_singleton_self _) _ rfl
    exact ⟨_, _, before, body, after, ofText_spanning, List.mem_singleton_self _, rfl, htext, hloc,
      hfeeds⟩
  · have hbody : Quoted '"' ['a'] ['a'] := .plain (by decide) (by decide) (by decide) .nil
    have hdenotes : Denotes ('"' :: ['a']) ['\n'] _ := .broken .string hbody rfl
    have hgap : Gap ['\n'] [] := .blank (by decide) .nil
    have htiles := Tiles.lexeme (n := 0) (l := ⟨0, _, _⟩) .nil hdenotes rfl (.stop hgap)
    exact (newlines_in_strings_are_escaped "t.cin" cutOff).2 _ htiles _ List.mem_cons_self _ _ []
      hbody rfl

/-- A string can go on in the next line: its text holds a line feed. -/
theorem string_spans_lines : ∃ stream t s before body after,
    TokenStream.ofText "t.cin" spanning = .ok stream ∧ t ∈ stream.lexemes ∧ t.token = .str s ∧
      spanning.toList = before ++ '"' :: (body ++ '"' :: after) ∧
      t.loc = Location.ofOffset "t.cin" spanning.toList before.length ∧
      Quoted '"' body s.toList ∧ '\n' ∈ body :=
  ⟨_, _, _, [], _, [], ofText_spanning, List.mem_singleton_self _, rfl, by decide, rfl,
    quoted_spanning, by decide⟩

end StackLang
