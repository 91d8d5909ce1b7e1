import Mathlib.Data.List.DropRight
import StackLang.Proofs.Grammar

/-!
This module contains why locations are true: a scan splits a text into lexemes and gaps without
skipping or repeating a character, and it tells for each lexeme the line and the column in which the
lexeme starts.
-/

namespace StackLang

/--
The place of the character at an offset of a text: the line by the line feeds in front of it, the
column by the characters since the last of them.
-/
def Location.ofOffset (file : String) (text : List Char) (offset : Nat) : Location where
  file
  line := 1 + (text.take offset).count '\n'
  col := 1 + ((text.take offset).rtakeWhile (· ≠ '\n')).length

theorem Location.advance_start (file : String) (cs : List Char) :
    (start file).advance cs =
      ⟨file, 1 + cs.count '\n', 1 + (cs.rtakeWhile (· ≠ '\n')).length⟩ := by
  induction cs using List.reverseRecOn with
  | nil => rfl
  | append_singleton cs c ih =>
    rw [advance_append, ih, advance_cons, advance_nil, next]
    by_cases hc : c = '\n'
    · rw [hc, if_pos rfl, List.rtakeWhile_concat_neg _ _ _ (by simp), List.count_append]
      simp [Nat.add_assoc]
    · rw [if_neg hc, List.rtakeWhile_concat_pos _ _ _ (by simpa using hc), List.count_append]
      simp [hc, Nat.add_assoc]

theorem Location.advance_take (file : String) (text : List Char) (offset : Nat) :
    (start file).advance (text.take offset) = ofOffset file text offset := advance_start file _

/-! ## What a scan tells -/

def Lexeme.found (t : Lexeme) : Location × Except LexicalFault Token := (t.loc, .ok t.token)

def LexicalError.found (e : LexicalError) : Location × Except LexicalFault Token :=
  (e.loc, .error e.fault)

namespace Scan

theorem map_errors (s : Scan) :
    s.errors.map LexicalError.found = s.found.filter (!·.2.isOk) := by
  obtain ⟨found, stop⟩ := s
  induction found with
  | nil => rfl
  | cons first found ih =>
    obtain ⟨loc, outcome⟩ := first
    cases outcome with
    | error fault => simpa [errors, LexicalError.found, Except.isOk, Except.toBool] using ih
    | ok token => simpa [errors, LexicalError.found, Except.isOk, Except.toBool] using ih

theorem map_lexemes {s : Scan} (h : s.errors = []) :
    s.lexemes.map Lexeme.found = s.found := by
  obtain ⟨found, stop⟩ := s
  induction found with
  | nil => rfl
  | cons first found ih =>
    obtain ⟨loc, outcome⟩ := first
    cases outcome with
    | error fault => simp [errors] at h
    | ok token =>
      have hrest := ih (by simpa [errors] using h)
      simpa [lexemes, Lexeme.found] using hrest

end Scan

namespace Lexeme

def Placed.found (file : String) (text : List Char) (l : Placed) :
    Location × Except LexicalFault Token :=
  (Location.ofOffset file text l.offset, l.outcome)

/--
The result of scanning a text that is made up of the lexemes `ls`: if none is at fault, all their
tokens and one mark of the end, at the end of the text; otherwise all that are at fault.
-/
def Reported (file : String) (text : List Char) (ls : List Placed) :
    Except (List LexicalError) TokenStream → Prop
  | .ok stream => ∃ ts : List Lexeme,
      stream.toList = ts ++ [⟨Location.ofOffset file text text.length, .eof⟩] ∧
      (∀ t ∈ ts, t.token ≠ .eof) ∧
      ts.map Lexeme.found = ls.map (Placed.found file text)
  | .error es => es ≠ [] ∧
      es.map LexicalError.found =
        (ls.map (Placed.found file text)).filter (!·.2.isOk)

theorem Tiles.found_eq {text : List Char} {ls : List Placed} (h : Tiles 0 text ls) (file : String) :
    (Scan.run (Location.start file) text).found = ls.map (Placed.found file text) := by
  rw [h.run_eq]
  simp only [Nat.sub_zero, Location.advance_take]
  rfl

theorem Tiles.stop_eq {text : List Char} {ls : List Placed} (h : Tiles 0 text ls) (file : String) :
    (Scan.run (Location.start file) text).stop = Location.ofOffset file text text.length := by
  rw [h.run_eq, ← Location.advance_take, List.take_length]

theorem Tiles.reported {text : String} {ls : List Placed} (h : Tiles 0 text.toList ls)
    (file : String) : Reported file text.toList ls (TokenStream.ofText file text) := by
  have hfound := h.found_eq file
  generalize hscan : Scan.run (Location.start file) text.toList = scan at hfound
  by_cases herrors : scan.errors = []
  · have hstream : TokenStream.ofText file text = .ok ⟨scan.lexemes, scan.stop⟩ := by
      simp [TokenStream.ofText, hscan, herrors]
    rw [hstream]
    refine ⟨scan.lexemes, ?_, ?_, ?_⟩
    · rw [TokenStream.toList, ← hscan, h.stop_eq file]
    · intro t ht heof
      have hlexable := TokenStream.lexable_of_mem hstream (List.mem_map_of_mem ht)
      rw [heof] at hlexable
      exact hlexable
    · rw [Scan.map_lexemes herrors, hfound]
  · have hfailed : TokenStream.ofText file text = .error scan.errors := by
      simp [TokenStream.ofText, hscan, herrors]
    rw [hfailed]
    refine ⟨herrors, ?_⟩
    rw [Scan.map_errors, hfound]

theorem Tiles.exists_placed {file text : String} {ls : List Placed} (h : Tiles 0 text.toList ls)
    {stream : TokenStream} (hstream : TokenStream.ofText file text = .ok stream) {t : Lexeme}
    (ht : t ∈ stream.lexemes) :
    ∃ l ∈ ls, t.loc = Location.ofOffset file text.toList l.offset ∧ l.outcome = .ok t.token := by
  have hreported := h.reported file
  rw [hstream] at hreported
  obtain ⟨ts, hts, -, hfound⟩ := hreported
  obtain ⟨rfl, -⟩ := List.append_inj' (hts : stream.lexemes ++ [_] = _) rfl
  have hmem : (t.loc, .ok t.token) ∈ ls.map (Placed.found file text.toList) := by
    rw [← hfound]
    exact List.mem_map_of_mem ht
  obtain ⟨l, hl, hplaced⟩ := List.mem_map.mp hmem
  obtain ⟨hloc, houtcome⟩ := Prod.mk.inj hplaced
  exact ⟨l, hl, hloc.symm, houtcome⟩

theorem Tiles.exists_error {file text : String} {ls : List Placed} (h : Tiles 0 text.toList ls)
    {l : Placed} (hl : l ∈ ls) {fault : LexicalFault} (hfault : l.outcome = .error fault) :
    ∃ es, TokenStream.ofText file text = .error es ∧
      ⟨Location.ofOffset file text.toList l.offset, fault⟩ ∈ es := by
  have hreported := h.reported file
  have hmem : (Location.ofOffset file text.toList l.offset, .error fault) ∈
      ls.map (Placed.found file text.toList) := by
    rw [← hfault]
    exact List.mem_map_of_mem hl
  cases hresult : TokenStream.ofText file text with
  | ok stream =>
    rw [hresult] at hreported
    obtain ⟨ts, -, -, hfound⟩ := hreported
    rw [← hfound] at hmem
    simp [Lexeme.found] at hmem
  | error es =>
    rw [hresult] at hreported
    have herror : (Location.ofOffset file text.toList l.offset, .error fault) ∈
        es.map LexicalError.found := by
      rw [hreported.2]
      exact List.mem_filter.mpr ⟨hmem, rfl⟩
    obtain ⟨e, he, hfound⟩ := List.mem_map.mp herror
    obtain ⟨hloc, hsame⟩ := Prod.mk.inj hfound
    rw [← hloc, ← Except.error.inj hsame]
    exact ⟨es, rfl, he⟩

end Lexeme

open Lexeme in
/--
Every text splits in one way into lexemes and gaps of blanks and comments. The scan finds these
lexemes in order, each at the line and the column where it starts. It tells of all of them and of
the end of the text, or of all that are at fault.
-/
theorem scan_splits_the_text (file text : String) :
    ∃ ls : List Placed, Tiles 0 text.toList ls ∧
      (∀ ks, Tiles 0 text.toList ks → ks = ls) ∧
      (ls.map (·.offset)).Pairwise (· < ·) ∧
      (Scan.run (Location.start file) text.toList).found = ls.map (Placed.found file text.toList) ∧
      Reported file text.toList ls (TokenStream.ofText file text) := by
  obtain ⟨ls, hls⟩ := exists_tiles 0 text.toList
  refine ⟨ls, hls, ?_, hls.pairwise_offset, hls.found_eq file, hls.reported file⟩
  intro ks hks
  exact hks.unique hls

end StackLang
