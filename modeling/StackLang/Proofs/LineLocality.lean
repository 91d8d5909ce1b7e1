import StackLang.Proofs.Positions
import StackLang.Proofs.Relocation

/-!
This module contains why lexing is local to lines: no lexeme takes a line feed that ends its line,
unless a backslash inside quotes escapes it, so a text is read line by line, whatever is wrong with
it.
-/

namespace StackLang

namespace Lexeme

/-- A literal that is not closed and ends right behind a backslash that starts an escape. -/
def Placed.EndsInEscape (l : Placed) : Prop :=
  ∃ (literal : Literal) (body chars : List Char), Quoted literal.quote body chars ∧
    l.chars = literal.quote :: (body ++ ['\\'])

def EndsInEscape (cs : List Char) : Prop :=
  ∃ ls l, Tiles 0 cs (ls ++ [l]) ∧ l.EndsInEscape

/-! ## What depends on the text behind -/

theorem Gap.congr {g rest rest' : List Char} (h : Gap g rest) (hhead : rest.head? = rest'.head?) :
    Gap g rest' := by
  induction h with
  | nil => exact .nil
  | blank hc _ ih => exact .blank hc (ih hhead)
  | comment hbody hline _ ih =>
    refine .comment hbody ?_ (ih hhead)
    unfold EndsLine at hline ⊢
    rwa [List.head?_append, ← hhead, ← List.head?_append]

theorem Denotes.congr {taken rest rest' : List Char} {o : Except LexicalFault Token}
    (h : Denotes taken rest o) (hhead : rest.head? = rest'.head?) : Denotes taken rest' o := by
  cases h with
  | lparen => exact .lparen
  | rparen => exact .rparen
  | closed l h => exact .closed l h
  | broken l h hrest => exact .broken l h (hhead ▸ hrest)
  | unclosed l h htail =>
    obtain rfl : rest' = [] := List.head?_eq_none_iff.mp hhead.symm
    exact .unclosed l h htail
  | nameless hrest =>
    refine .nameless ?_
    unfold StartsBlank at hrest ⊢
    rwa [← hhead]
  | param hne hname hrest =>
    refine .param hne hname ?_
    unfold StartsBlank at hrest ⊢
    rwa [← hhead]
  | word h hrest => exact .word h (hhead ▸ hrest)

theorem mem_getLast?_append (front : List Char) {back : List Char} {c : Char}
    (h : c ∈ back.getLast?) : c ∈ (front ++ back).getLast? := by
  rw [List.getLast?_append, h]
  rfl

theorem Gap.append {g g' rest : List Char} (h : Gap g []) (hlast : ∀ c ∈ g.getLast?, c = '\n')
    (h' : Gap g' rest) : Gap (g ++ g') rest := by
  generalize hnil : [] = after at h
  induction h with
  | nil => exact h'
  | @blank c g _ hc _ ih =>
    refine .blank hc (ih ?_ hnil)
    intro d hd
    exact hlast d (mem_getLast?_append [c] hd)
  | @comment body g _ hbody hline _ ih =>
    have hgap : Gap (g ++ g') rest := by
      apply ih _ hnil
      intro d hd
      exact hlast d (mem_getLast?_append ('/' :: '/' :: body) hd)
    rw [List.cons_append, List.cons_append, List.append_assoc]
    refine .comment hbody ?_ hgap
    cases g with
    | nil =>
      -- the line feed at the end would be part of the comment
      have hne := List.cons_ne_nil '/' ('/' :: (body ++ []))
      have hfeed := hlast _ (List.getLast?_eq_some_getLast hne)
      have hmem := List.getLast_mem hne
      rw [hfeed] at hmem
      simp [hbody] at hmem
    | cons d g =>
      intro d' hd'
      exact hline d' hd'

/-! ## Line feeds in lexemes -/

theorem Denotes.eq_of_getLast? {taken : List Char} {o : Except LexicalFault Token}
    (h : Denotes taken [] o) (hlast : taken.getLast? = some '\n') :
    ∃ (l : Literal) (body chars : List Char), Quoted l.quote body chars ∧
      taken = l.quote :: (body ++ ['\\', '\n']) := by
  generalize hnil : [] = rest at h
  cases h with
  | lparen | rparen | nameless => simp at hlast
  | closed l h =>
    rw [← List.cons_append, List.getLast?_append] at hlast
    cases l <;> simp [Literal.quote] at hlast
  | broken l h hrest => simp [← hnil] at hrest
  | @unclosed l body chars tail h htail =>
    rcases htail with rfl | rfl
    · rw [List.append_nil] at hlast ⊢
      have hbody : body.getLast? = some '\n' := by
        cases body with
        | nil => cases l <;> simp [Literal.quote] at hlast
        | cons c body => rwa [List.getLast?_cons_cons] at hlast
      obtain ⟨before, rfl⟩ := List.getLast?_eq_some_iff.mp hbody
      obtain ⟨front, chars', hfront, rfl⟩ := h.eq_concat_of_feed rfl
      exact ⟨l, front, chars', hfront, by simp⟩
    · rw [← List.cons_append, List.getLast?_append] at hlast
      simp at hlast
  | param hne hname hrest =>
    have hmem := List.mem_of_getLast? hlast
    simp only [List.mem_cons, Char.reduceEq, false_or] at hmem
    exact absurd (List.all_eq_true.mp hname _ hmem) (by decide)
  | word h hrest =>
    exact absurd (List.all_eq_true.mp h.chars _ (List.mem_of_getLast? hlast)) (by decide)

/-! ## Texts in a row -/

namespace Tiles

variable {n : Nat} {ls ms : List Placed} {a b cs : List Char}

theorem ne_nil (h : Tiles n cs ls) (hls : ls ≠ []) : cs ≠ [] := by
  cases h with
  | stop => exact absurd rfl hls
  | lexeme _ hl => simp [hl.ne_nil]

theorem after_gap {g : List Char} (hg : Gap g []) (hlast : ∀ c ∈ g.getLast?, c = '\n')
    (h : Tiles (n + g.length) b ms) : Tiles n (g ++ b) ms := by
  generalize hm : n + g.length = m at h
  cases h with
  | stop hg' => exact .stop (hg.append hlast hg')
  | lexeme hg' hl hoffset h =>
    rw [← List.append_assoc]
    refine .lexeme (hg.append hlast hg') hl ?_ h
    rw [hoffset, List.length_append]
    omega

theorem lexeme_congr {g rest rest' : List Char} {l : Placed} (hg : Gap g (l.chars ++ rest))
    (hl : Denotes l.chars rest l.outcome) (hoffset : l.offset = n + g.length)
    (hhead : rest.head? = rest'.head?) (h : Tiles (l.offset + l.chars.length) rest' ls) :
    Tiles n (g ++ (l.chars ++ rest')) (l :: ls) := by
  refine .lexeme (hg.congr ?_) (hl.congr hhead) hoffset h
  rw [List.head?_append, List.head?_append, hhead]

theorem exists_endsInEscape {g body chars after : List Char} {literal : Literal}
    (hg : Gap g (literal.quote :: after)) (hbody : Quoted literal.quote body chars) (n : Nat) :
    ∃ k, Tiles n (g ++ literal.quote :: (body ++ ['\\'])) [k] ∧ k.EndsInEscape := by
  have hdenotes : Denotes (literal.quote :: (body ++ ['\\'])) [] _ :=
    .unclosed literal hbody (Or.inr rfl)
  have htiles :=
    lexeme_congr (l := ⟨n + g.length, _, _⟩) (hg.congr rfl) hdenotes rfl rfl (.stop .nil)
  rw [List.append_nil] at htiles
  exact ⟨_, htiles, literal, body, chars, hbody, rfl⟩

/--
A text that ends its last line and a text that follows it are made up of the lexemes of both, unless
the line feed at the end of the first is escaped.
-/
theorem append (h : Tiles n (a ++ ['\n']) ls) (h' : Tiles (n + (a ++ ['\n']).length) b ms) :
    Tiles n (a ++ ['\n'] ++ b) (ls ++ ms) ∨
      ∃ ks k, Tiles n a (ks ++ [k]) ∧ k.EndsInEscape := by
  generalize hcs : a ++ ['\n'] = cs at h h'
  induction h generalizing a with
  | stop hg =>
    refine Or.inl (after_gap hg ?_ h')
    simp [← hcs]
  | @lexeme n g rest l ls hg hl hoffset h ih =>
    rcases List.eq_nil_or_concat' rest with rfl | ⟨before, c, rfl⟩
    · -- the lexeme goes on to the end of the text, so it takes the line feed
      rw [List.append_nil] at hcs hg
      have hlast : l.chars.getLast? = some '\n' := by
        have hsame := congrArg List.getLast? hcs
        rwa [List.getLast?_append_of_ne_nil _ hl.ne_nil, List.getLast?_concat, eq_comm] at hsame
      obtain ⟨literal, body, chars, hbody, hchars⟩ := hl.eq_of_getLast? hlast
      rw [hchars] at hcs hg
      obtain ⟨k, hk, hescape⟩ := exists_endsInEscape hg hbody n
      refine Or.inr ⟨[], k, ?_, hescape⟩
      have ha : a = g ++ literal.quote :: (body ++ ['\\']) := by
        apply (List.append_left_inj ['\n']).mp
        simpa using hcs
      rwa [ha]
    · rw [← List.append_assoc, ← List.append_assoc] at hcs
      obtain ⟨rfl, hc⟩ := List.append_inj' hcs rfl
      have hlength : n + (g ++ (l.chars ++ (before ++ [c]))).length =
          l.offset + l.chars.length + (before ++ [c]).length := by
        simp only [hoffset, List.length_append]
        omega
      rw [hlength] at h'
      rcases ih (by rw [hc]) h' with hboth | ⟨ks, k, hks, hk⟩
      · refine Or.inl ?_
        rw [List.append_assoc, List.append_assoc]
        exact lexeme_congr hg hl hoffset (by simp [List.head?_append]) hboth
      · refine Or.inr ⟨l :: ks, k, ?_, hk⟩
        have hne : before ≠ [] := hks.ne_nil (by simp)
        rw [List.append_assoc]
        refine lexeme_congr hg hl hoffset ?_ hks
        rw [List.head?_append_of_ne_nil _ hne]

end Tiles

end Lexeme

/-! ## Scans -/

def Location.down (count : Nat) (l : Location) : Location := { l with line := l.line + count }

theorem Location.advance_down (l : Location) (count : Nat) (cs : List Char) :
    (l.down count).advance cs = (l.advance cs).down count := by
  induction cs generalizing l with
  | nil => rfl
  | cons c cs ih =>
    rw [advance_cons, advance_cons, ← ih]
    congr 1
    unfold next
    split
    · simp only [down, Nat.add_right_comm]
    · rfl

theorem Location.advance_line (file : String) (cs : List Char) :
    (start file).advance (cs ++ ['\n']) = (start file).down ((cs ++ ['\n']).count '\n') := by
  rw [advance_start, List.rtakeWhile_concat_neg _ _ _ (by simp)]
  rfl

namespace Scan

def down (count : Nat) (s : Scan) : Scan :=
  ⟨s.found.map fun (loc, outcome) => (loc.down count, outcome), s.stop.down count⟩

def append (s t : Scan) : Scan := ⟨s.found ++ t.found, t.stop⟩

theorem run_down (loc : Location) (count : Nat) (cs : List Char) :
    run (loc.down count) cs = (run loc cs).down count := by
  obtain ⟨ls, hls⟩ := Lexeme.exists_tiles 0 cs
  simp [hls.run_eq, down, Location.advance_down]

theorem run_append {a : List Char} (ha : ¬ Lexeme.EndsInEscape a) (b : List Char) (loc : Location) :
    run loc (a ++ ['\n'] ++ b) =
      (run loc (a ++ ['\n'])).append (run (loc.advance (a ++ ['\n'])) b) := by
  obtain ⟨ls, hls⟩ := Lexeme.exists_tiles 0 (a ++ ['\n'])
  obtain ⟨ms, hms⟩ := Lexeme.exists_tiles (0 + (a ++ ['\n']).length) b
  have hboth := (hls.append hms).resolve_right ha
  have hfirst : ls.map (fun l =>
        (loc.advance ((a ++ ['\n'] ++ b).take (l.offset - 0)), l.outcome)) =
      ls.map fun l => (loc.advance ((a ++ ['\n']).take (l.offset - 0)), l.outcome) := by
    apply List.map_congr_left
    intro l hl
    have hle := hls.offset_le hl
    rw [List.take_append_of_le_length (by omega)]
  have hsecond : ms.map (fun l =>
        (loc.advance ((a ++ ['\n'] ++ b).take (l.offset - 0)), l.outcome)) =
      ms.map fun l => ((loc.advance (a ++ ['\n'])).advance
        (b.take (l.offset - (0 + (a ++ ['\n']).length))), l.outcome) := by
    apply List.map_congr_left
    intro l hl
    have hle := hms.le_offset hl
    rw [List.take_append, List.take_of_length_le (by omega), Location.advance_append, Nat.sub_zero,
      Nat.zero_add]
  rw [hls.run_eq, hms.run_eq, hboth.run_eq, append, List.map_append, hfirst, hsecond,
    Location.advance_append loc (a ++ ['\n']) b]

def result (s : Scan) : Except (List LexicalError) TokenStream :=
  if s.errors.isEmpty then .ok ⟨s.lexemes, s.stop⟩ else .error s.errors

theorem errors_append (s t : Scan) : (s.append t).errors = s.errors ++ t.errors := by
  simp [errors, append]

theorem lexemes_append (s t : Scan) : (s.append t).lexemes = s.lexemes ++ t.lexemes := by
  simp [lexemes, append]

theorem errors_down (s : Scan) (count : Nat) :
    (s.down count).errors = s.errors.map fun e => ⟨e.loc.down count, e.fault⟩ := by
  obtain ⟨found, stop⟩ := s
  simp only [errors, down, List.filterMap_map, List.map_filterMap]
  apply List.filterMap_congr
  rintro ⟨loc, outcome⟩ -
  cases outcome <;> rfl

theorem lexemes_down (s : Scan) (count : Nat) :
    (s.down count).lexemes = s.lexemes.map (Lexeme.relocate (Location.down count)) := by
  obtain ⟨found, stop⟩ := s
  simp only [lexemes, down, List.filterMap_map, List.map_filterMap]
  apply List.filterMap_congr
  rintro ⟨loc, outcome⟩ -
  cases outcome <;> rfl

end Scan

namespace TokenStream

def down (count : Nat) :
    Except (List LexicalError) TokenStream → Except (List LexicalError) TokenStream
  | .ok s => .ok ⟨s.lexemes.map (Lexeme.relocate (Location.down count)), s.stop.down count⟩
  | .error es => .error (es.map fun e => ⟨e.loc.down count, e.fault⟩)

/--
The result of scanning two texts in a row: the tokens of both, with one mark of the end, or the
errors of both.
-/
def append : (first second : Except (List LexicalError) TokenStream) →
    Except (List LexicalError) TokenStream
  | .ok s, .ok t => .ok ⟨s.lexemes ++ t.lexemes, t.stop⟩
  | .ok _, .error fs => .error fs
  | .error es, .ok _ => .error es
  | .error es, .error fs => .error (es ++ fs)

theorem result_append (s t : Scan) : (s.append t).result = append s.result t.result := by
  unfold Scan.result
  rw [Scan.errors_append, Scan.lexemes_append]
  cases hs : s.errors <;> cases ht : t.errors <;> simp [append, Scan.append]

theorem result_down (s : Scan) (count : Nat) : (s.down count).result = down count s.result := by
  unfold Scan.result
  rw [Scan.errors_down, Scan.lexemes_down]
  cases hs : s.errors <;> simp [down, Scan.down]

end TokenStream

/--
Lexing is local to lines. In a text that ends its last line, and does not escape the line feed
there, followed by another text, the tokens are those of the first and then those of the second, so
many lines further down; if one of them is at fault, the errors of both are told in the same way.
-/
theorem lexing_is_local_to_lines (file : String) {a : String}
    (ha : ¬ Lexeme.EndsInEscape a.toList) (b : String) :
    TokenStream.ofText file (a ++ "\n" ++ b) =
      TokenStream.append (TokenStream.ofText file (a ++ "\n"))
        (TokenStream.down ((a ++ "\n").toList.count '\n') (TokenStream.ofText file b)) := by
  have hofText (text : String) : TokenStream.ofText file text =
      (Scan.run (Location.start file) text.toList).result := rfl
  have hline : (a ++ "\n").toList = a.toList ++ ['\n'] := String.toList_append
  have hboth : (a ++ "\n" ++ b).toList = a.toList ++ ['\n'] ++ b.toList := by
    rw [String.toList_append, hline]
  rw [hofText, hofText, hofText, hline, hboth, Scan.run_append ha, Location.advance_line,
    Scan.run_down, TokenStream.result_append, TokenStream.result_down]

/-- An open string that ends in an escape of a backslash, so the next backslash would start one. -/
def halfOpen : String := "1 \"a\\\\"

open Lexeme in
theorem not_endsInEscape_halfOpen : ¬ EndsInEscape halfOpen.toList := by
  have htext : halfOpen.toList = [] ++ (['1'] ++ ([' '] ++ (['"', 'a', '\\', '\\'] ++ []))) := by
    decide
  have hgap : Gap [' '] (['"', 'a', '\\', '\\'] ++ []) := .blank (by decide) .nil
  have hone : Denotes ['1'] ([' '] ++ (['"', 'a', '\\', '\\'] ++ [])) (readWord ['1']) := by
    refine .word (by decide) ?_
    intro c hc
    rw [← Option.some.inj hc]
    rfl
  have hstring : Denotes ['"', 'a', '\\', '\\'] [] (.error .unclosedString) :=
    .unclosed .string (.plain (by decide) (by decide) (by decide) (.escape '\\' .nil)) (Or.inl rfl)
  have hlast := Tiles.lexeme (n := 1) (l := ⟨2, _, _⟩) hgap hstring rfl (.stop .nil)
  have htiles := Tiles.lexeme (n := 0) (l := ⟨0, _, _⟩) .nil hone rfl hlast
  rw [← htext] at htiles
  rintro ⟨ls, l, hls, literal, body, chars, hbody, hchars⟩
  have hsame : ls ++ [l] = [_] ++ [_] := hls.unique htiles
  obtain ⟨-, hl⟩ := List.append_inj' hsame rfl
  rw [List.singleton_inj.mp hl] at hchars
  obtain ⟨hquote, htail⟩ := List.cons.inj hchars
  -- the text inside the quotes would end in half an escape
  obtain rfl : body = ['a', '\\'] := List.append_left_injective ['\\'] htail.symm
  cases hbody with
  | plain _ _ _ h =>
    cases h with
    | plain hescape => exact hescape rfl

theorem lexing_is_local_to_lines_halfOpen :
    ¬ Lexeme.EndsInEscape halfOpen.toList ∧
      TokenStream.ofText "a.cin" (halfOpen ++ "\n" ++ "$ 'b'") =
        TokenStream.append (TokenStream.ofText "a.cin" (halfOpen ++ "\n"))
          (TokenStream.down ((halfOpen ++ "\n").toList.count '\n')
            (TokenStream.ofText "a.cin" "$ 'b'")) :=
  ⟨not_endsInEscape_halfOpen, lexing_is_local_to_lines "a.cin" not_endsInEscape_halfOpen "$ 'b'"⟩

end StackLang
