import StackLang.Proofs.Linked

/-!
This module contains the equations of the lexer: what a gap and the content of a literal start with,
how a scan goes on behind a gap, and when a text is read without faults.
-/

namespace StackLang

namespace Lexeme

theorem gap_cons {c : Char} {cs : List Char} (h : ¬ ['/', '/'] <+: c :: cs) :
    gap false (c :: cs) =
      if Text.isBlank c then (c :: (gap false cs).1, (gap false cs).2) else ([], c :: cs) := by
  rw [gap.eq_def]
  split
  · next heq => cases heq
  · next heq _ => cases heq
  · next heq =>
    rw [heq] at h
    exact absurd ⟨_, rfl⟩ h
  · next heq =>
    obtain ⟨rfl, rfl⟩ := List.cons.inj heq
    rfl

theorem not_comment_of_ne {c : Char} (h : c ≠ '/') (cs : List Char) :
    ¬ ['/', '/'] <+: c :: cs := by
  rw [List.cons_prefix_cons]
  exact fun hstart => h hstart.1.symm

theorem gap_blank {c : Char} (h : Text.isBlank c = true) (cs : List Char) :
    gap false (c :: cs) = (c :: (gap false cs).1, (gap false cs).2) := by
  have hc : c ≠ '/' := by
    rintro rfl
    exact absurd h (by decide)
  rw [gap_cons (not_comment_of_ne hc cs), if_pos h]

theorem gap_eq_nil {c : Char} {cs : List Char} (hc : Text.isBlank c = false)
    (hcs : ¬ ['/', '/'] <+: c :: cs) : gap false (c :: cs) = ([], c :: cs) := by
  rw [gap_cons hcs, hc]
  rfl

theorem not_comment_of_gap {inComment : Bool} {cs g rest : List Char} {c : Char}
    (h : gap inComment cs = (g, c :: rest)) : ¬ ['/', '/'] <+: c :: rest := by
  fun_induction gap inComment cs generalizing g with
  | case1 => simp at h
  | case2 c' cs g' rest' hgap ih =>
    simp only [Prod.mk.injEq] at h
    exact ih (by rw [hgap, h.2])
  | case3 cs g' rest' hgap ih =>
    simp only [Prod.mk.injEq] at h
    exact ih (by rw [hgap, h.2])
  | case4 c' cs hne hblank g' rest' hgap ih =>
    simp only [Prod.mk.injEq] at h
    exact ih (by rw [hgap, h.2])
  | case5 c' cs hne hblank =>
    simp only [Prod.mk.injEq] at h
    rw [← h.2]
    rintro ⟨after, hafter⟩
    simp only [List.cons_append, List.nil_append, List.cons.injEq] at hafter
    exact hne after hafter.1.symm hafter.2.symm

theorem content_cons {quote c : Char} (hc : c ≠ '\\') (cs : List Char) :
    content quote (c :: cs) =
      if c = quote then ⟨[], [c], cs, .quote⟩
      else if c = '\n' then ⟨[], [], c :: cs, .newline⟩
      else ⟨c :: (content quote cs).chars, c :: (content quote cs).taken, (content quote cs).rest,
        (content quote cs).ending⟩ := by
  rw [content.eq_def]
  split
  · next heq => cases heq
  · next heq => exact absurd (List.cons.inj heq).1 hc
  · next heq => exact absurd (List.cons.inj heq).1 hc
  · next heq =>
    obtain ⟨rfl, rfl⟩ := List.cons.inj heq
    rfl

theorem content_escaped (quote c : Char) (cs : List Char) :
    content quote ('\\' :: c :: cs) =
      ⟨unescape c ++ (content quote cs).chars, '\\' :: c :: (content quote cs).taken,
        (content quote cs).rest, (content quote cs).ending⟩ := by
  rw [content]

end Lexeme

namespace Scan

theorem run_of_gap {loc : Location} {cs g rest : List Char} {c : Char}
    (h : Lexeme.gap false cs = (g, c :: rest)) :
    run loc cs =
      ⟨(loc.advance g, (Lexeme.cut c rest).outcome) ::
          (run ((loc.advance g).advance (Lexeme.cut c rest).taken) (Lexeme.cut c rest).rest).found,
        (run ((loc.advance g).advance (Lexeme.cut c rest).taken)
          (Lexeme.cut c rest).rest).stop⟩ := by
  rw [run]
  split
  · next heq => simp [h] at heq
  · next heq =>
    rw [h] at heq
    cases heq
    rfl

theorem run_of_gap_nil {loc : Location} {cs g : List Char} (h : Lexeme.gap false cs = (g, [])) :
    run loc cs = ⟨[], loc.advance g⟩ := by
  rw [run]
  split
  · next heq =>
    rw [h] at heq
    cases heq
    rfl
  · next heq => simp [h] at heq

theorem run_blank {c : Char} (h : Text.isBlank c = true) (loc : Location) (cs : List Char) :
    run loc (c :: cs) = run (loc.next c) cs := by
  have hblank := Lexeme.gap_blank h cs
  cases hgap : Lexeme.gap false cs with
  | mk g rest =>
    rw [hgap] at hblank
    cases rest with
    | nil => rw [run_of_gap_nil hblank, run_of_gap_nil hgap, Location.advance_cons]
    | cons d rest => rw [run_of_gap hblank, run_of_gap hgap, Location.advance_cons]

theorem outcomes_eq_iff (s : Scan) (ts : List Token) :
    s.found.map (·.2) = ts.map .ok ↔ s.errors = [] ∧ s.lexemes.map (·.token) = ts := by
  obtain ⟨found, stop⟩ := s
  induction found generalizing ts with
  | nil => simp [errors, lexemes, eq_comm]
  | cons first found ih =>
    obtain ⟨loc, outcome⟩ := first
    simp only [errors, lexemes] at ih ⊢
    cases outcome with
    | error fault => cases ts <;> simp
    | ok t =>
      cases ts with
      | nil => simp
      | cons u ts =>
        simp only [List.map_cons, List.cons.injEq, Except.ok.injEq, ih, List.filterMap_cons]
        exact and_left_comm

end Scan

namespace TokenStream

theorem outcomes_of_ofText {file text : String} {stream : TokenStream}
    (h : ofText file text = .ok stream) :
    (Scan.run (Location.start file) text.toList).found.map (·.2) =
      (stream.lexemes.map (·.token)).map .ok := by
  unfold ofText at h
  simp only at h
  split at h
  · next herrors =>
    rw [← Except.ok.inj h, Scan.outcomes_eq_iff]
    exact ⟨List.isEmpty_iff.mp herrors, rfl⟩
  · simp at h

theorem exists_of_outcomes {file text : String} {ts : List Token}
    (h : (Scan.run (Location.start file) text.toList).found.map (·.2) = ts.map .ok) :
    ∃ stream, ofText file text = .ok stream ∧ stream.lexemes.map (·.token) = ts := by
  obtain ⟨herrors, hlexemes⟩ := (Scan.outcomes_eq_iff _ _).mp h
  refine ⟨⟨_, (Scan.run (Location.start file) text.toList).stop⟩, ?_, hlexemes⟩
  unfold ofText
  exact if_pos (List.isEmpty_iff.mpr herrors)

end TokenStream
end StackLang
