import TemplateCheck.Proofs.Cursor.Shift
import TemplateCheck.Proofs.Lexer.Boundary
import TemplateCheck.Template.Kind

/-!
# Lexers started again

A lexer remembers where it is and how wide the lines were that it has left.  A lexer that is started
on the bytes that are left remembers nothing, and counts lines and columns from another place.  It
cuts the same tokens, also where a newline is given back and the two look up its width for different
lines.

* `Lexer.Trails p l l'`   the two have the same bytes left, and `l` is where `l'` is in a text that
                          begins at `p`
* `Lexer.Trails.next`     they answer with the same token, and stay like that
* `Lexer.token_restart`   a lexer that stands between two characters, and one started there
-/

namespace TemplateCheck.Lexer
open Utf8 (encode)

variable {K : Type}

structure Trails (p : Position) (l l' : Lexer K) : Prop where
  automaton : l.automaton = l'.automaton
  rest : l.rest = l'.rest
  pos : l.cursor.pos = p.shift l'.cursor.pos
  /-- both know where they are -/
  exact : l.cursor.Exact ∧ l'.cursor.Exact

theorem Reads.one_le_line {l : Lexer K} {bs : List UInt8} (h : l.Reads bs) :
    1 ≤ l.cursor.pos.line := by
  rw [h.pos]
  exact Position.one_le_line_after _

/-- They answer with the same token where they find one of the same kind and length. -/
theorem Trails.tokenOf {p : Position} {l l' : Lexer K} (h : Trails p l l') (kind : K)
    (length : Nat) : l.tokenOf kind length = (l'.tokenOf kind length).shift p := by
  unfold Lexer.tokenOf Token.shift
  rw [h.rest, h.pos]
  rfl

variable [TokenKind K]

theorem Reads.pos_next {l : Lexer K} {bs : List UInt8} (h : l.Reads bs) (hne : l.rest ≠ []) :
    l.next.2.cursor.pos = l.cursor.pos.after (l.rest.take (l.automaton.cut l.rest).2) := by
  refine h.pos_eq_after h.next ?_
  rw [(next_eq_cut l hne).2, List.take_append_drop]

/-- **One call.**  Where the two stand afterwards follows from the bytes of the token, and not from
how they came there. -/
theorem Trails.next {p : Position} {l l' : Lexer K} (h : Trails p l l') :
    l.next.1 = l'.next.1.shift p ∧ Trails p l.next.2 l'.next.2 := by
  have hreads : l.Reads l.cursor.bytes := ⟨rfl, h.exact.1⟩
  have hreads' : l'.Reads l'.cursor.bytes := ⟨rfl, h.exact.2⟩
  by_cases hnil : l'.rest = []
  · rw [next_of_rest_eq_nil l (h.rest.trans hnil), next_of_rest_eq_nil l' hnil]
    exact ⟨h.tokenOf _ 0, h⟩
  · have hne : l.rest ≠ [] := fun hl => hnil (h.rest.symm.trans hl)
    have hcut : l.automaton.cut l.rest = l'.automaton.cut l'.rest := by rw [h.automaton, h.rest]
    obtain ⟨htoken, hrest⟩ := next_eq_cut l hne
    obtain ⟨htoken', hrest'⟩ := next_eq_cut l' hnil
    refine ⟨?_, ?_, ?_, ?_, hreads.next.exact, hreads'.next.exact⟩
    · rw [htoken, htoken', hcut]
      exact h.tokenOf _ _
    · rw [automaton_next, automaton_next, h.automaton]
    · rw [hrest, hrest', hcut, h.rest]
    · rw [hreads.pos_next hne, hreads'.pos_next hnil, hcut, h.rest, h.pos]
      exact Position.shift_after p hreads'.one_le_line _

/-- **Any number of calls.** -/
theorem Trails.take {p : Position} {l l' : Lexer K} {n : Nat} (h : Trails p (l.take n).2 l')
    (m : Nat) : Trails p (l.take (n + m)).2 (l'.take m).2 := by
  induction m with
  | zero => exact h
  | succ m ih =>
    rw [← Nat.add_assoc, take_snd_succ, take_snd_succ]
    exact ih.next.2

section
variable {a : Automaton K} {source before suffix : String} {n : Nat}
  (hsource : source = before ++ suffix)
  (hn : (ofText a source).boundary n = (encode before).length)
include hsource hn

theorem pos_take : ((ofText a source).take n).2.cursor.pos = .after .start (encode before) := by
  refine ((reads_ofText a source).take n).pos.trans ?_
  show Position.start.after ((encode source).take ((ofText a source).boundary n)) = _
  rw [hn, hsource, Utf8.encode_append, List.take_left]

theorem trails_ofText : Trails (.after .start (encode before)) ((ofText a source).take n).2
    (ofText a suffix) := by
  have h := reads_ofText a source
  refine ⟨automaton_take _ n, ?_, ?_, (h.take n).exact, Cursor.exact_ofBytes _⟩
  · rw [h.rest_take n, hn, hsource, Utf8.encode_append, List.drop_left]
    rfl
  · rw [pos_take hsource hn]
    exact (Position.shift_start (Position.one_le_line_after _)
      (Position.one_le_column_after _)).symm

end

/-- **What has been lexed has no influence on what follows.**  A lexer that stands at a boundary
between two characters goes on like one that is started on the text behind it, with the places of
its tokens and their boundaries counted from there. -/
theorem token_restart (a : Automaton K) (source before suffix : String) (n : Nat)
    (hsource : source = before ++ suffix)
    (hn : (ofText a source).boundary n = (encode before).length) :
    let l := ofText a source
    let l' := ofText a suffix
    let p := Position.start.after (encode before)
    (l.take n).2.cursor.pos = p ∧
      ∀ m, l.token (n + m) = (l'.token m).shift p ∧
        l.boundary (n + m) = l.boundary n + l'.boundary m := by
  intro l l' p
  refine ⟨pos_take hsource hn, fun m => ?_⟩
  have h : Trails p (l.take (n + m)).2 (l'.take m).2 := (trails_ofText hsource hn).take m
  refine ⟨h.next.1, ?_⟩
  have hoffset : p.offset = l.boundary n := by
    rw [hn, Position.offset_after]
    exact Nat.zero_add _
  rw [← hoffset, boundary, h.pos]
  exact Nat.add_comm _ _

/-- The newline behind `ab` is given back once the letter behind it has been read.  For this one of
the lexers looks up the width of line 2, and the other that of line 1. -/
theorem token_restart_newline :
    let a : Automaton Template.Kind := {
      columns := 4
      transitions := [[1, 3, 3, -1], [1, 2, 4, 4], [5, 4, 4, 4], [4, 4, 4, 4],
        [-1, -1, -1, -1], [-1, -1, -1, -1]]
      actions := [.scan, .scan, .scan, .scan, .accept .content, .acceptWithPushback .content]
      classify := fun look => look.elim 3 fun b =>
        if 0x61 ≤ b ∧ b ≤ 0x7a then 0 else if b = newline then 1 else 2 }
    (ofText a ".\n.ab\nc").boundary 3 = (encode ".\n.").length ∧
    (ofText a "ab\nc").token 1 = ⟨.content, "\n", 1, 3⟩ ∧
    (ofText a ".\n.ab\nc").token (3 + 1) = ⟨.content, "\n", 2, 4⟩ := by
  intro a
  have hn : (ofText a ".\n.ab\nc").boundary 3 = (encode ".\n.").length := by rfl
  have htoken : (ofText a "ab\nc").token 1 = ⟨.content, "\n", 1, 3⟩ := by rfl
  obtain ⟨-, hrestart⟩ := token_restart a ".\n.ab\nc" ".\n." "ab\nc" 3 rfl hn
  refine ⟨hn, htoken, ?_⟩
  rw [(hrestart 1).1, htoken]
  rfl

end TemplateCheck.Lexer
