import TemplateCheck.Proofs.Automaton.WellFormed
import TemplateCheck.Proofs.Lexer.Boundary
import TemplateCheck.Template.Kind

/-!
# The states a run comes through

Well-formed tables alone do not rule out that a run finds no token.  They do rule out the reasons
that lie in the shape of the tables, and leave a short list of others.

* `Automaton.Visits a bs state read`  a run over `bs` looks at the next byte in this state, after so
                                many bytes of the token
* `Automaton.EndsAt`            what a run comes to by its last look
* `Automaton.ClassifiesBytes`   a byte has a column of the table, and the end of the input has not the
                                same one
* `Automaton.Checked`           what holds of a look, after so many bytes
* `Automaton.Unrecognized`      why the last look may leave an unrecognized token
* `Visits.checked`              every look of a run is checked
* `Visits.unrecognized`         an unrecognized token has one of these reasons
-/

namespace TemplateCheck

variable {K : Type}

/-- the kind of the token that a run leaves -/
def Halt.kind [TokenKind K] : Halt K → K
  | .accept kind => kind
  | .pushback kind => kind
  | .stuck => TokenKind.unrecognized

namespace Automaton

variable [TokenKind K]

/-! ## what one look can be -/

section
variable {a : Automaton K} {state read next : Nat} {look : Option UInt8}

theorem move_eq_go_iff : a.move state read look = .go next ↔
    a.next? state (a.classify look) = some next ∧ a.action next = .scan := by
  constructor
  · intro h
    unfold move at h
    split at h
    · cases h
    · next target hnext =>
      split at h
      · next hscan =>
        obtain rfl := Move.go.inj h
        exact ⟨hnext, hscan⟩
      · cases h
      · cases h
  · rintro ⟨hnext, hscan⟩
    exact move_of_scan hnext hscan

theorem move_of_short {kind : K} (hnext : a.next? state (a.classify look) = some next)
    (haction : a.action next = .acceptWithPushback kind) (hread : read ≤ 1) :
    a.move state read look = .halt .stuck := by
  simp only [move, hnext, haction, if_pos hread]

end

/-! ## the looks of a run -/

/-- A run over these bytes looks at the next one in this state.  Over no bytes there is no run. -/
inductive Visits (a : Automaton K) (bs : List UInt8) : Nat → Nat → Prop where
  | start : bs ≠ [] → Visits a bs startState 0
  | go {state read next : Nat} {b : UInt8} : Visits a bs state read → bs[read]? = some b →
      a.move state read (some b) = .go next → Visits a bs next (read + 1)

inductive EndsAt (a : Automaton K) (bs : List UInt8) (state : Nat) : Nat × Halt K → Prop where
  | halt {read : Nat} {how : Halt K} : a.move state read bs[read]? = .halt how →
      EndsAt a bs state (read, how)
  /-- the automaton wants to read on, and the input is over -/
  | ended {read next : Nat} : bs[read]? = none → a.move state read none = .go next →
      EndsAt a bs state (read, .stuck)

variable {a : Automaton K} {bs : List UInt8} {state read : Nat}

/-- **A run ends at one of its looks.** -/
theorem Visits.exists_endsAt {rest : List UInt8} (h : a.Visits bs state read)
    (hrest : bs.drop read = rest) :
    ∃ last, a.Visits bs last (a.run state read rest).1 ∧
      a.EndsAt bs last (a.run state read rest) := by
  induction rest generalizing state read with
  | nil =>
    have hnone : bs[read]? = none := List.getElem?_eq_none_iff.mpr (List.drop_eq_nil_iff.mp hrest)
    unfold run
    split
    · next next hmove => exact ⟨state, h, .ended hnone hmove⟩
    · next how hmove => exact ⟨state, h, .halt (hnone ▸ hmove)⟩
  | cons b rest ih =>
    have hsome : bs[read]? = some b := by
      rw [← List.head?_drop, hrest, List.head?_cons]
    have htail : bs.drop (read + 1) = rest := by
      rw [← List.tail_drop, hrest, List.tail_cons]
    unfold run
    split
    · next next hmove => exact ih (h.go hsome hmove) htail
    · next how hmove => exact ⟨state, h, .halt (hsome ▸ hmove)⟩

theorem Visits.eq_start (h : a.Visits bs state 0) : state = startState ∧ ∃ b, bs[0]? = some b := by
  cases h with
  | start hne =>
    obtain ⟨b, rest, rfl⟩ := List.exists_cons_of_ne_nil hne
    exact ⟨rfl, b, rfl⟩

/-! ## looks in well-formed tables -/

def ClassifiesBytes (a : Automaton K) : Prop :=
  ∀ b, a.classify (some b) < a.columns ∧ a.classify (some b) ≠ a.classify none

structure Checked (a : Automaton K) (state read : Nat) (look : Option UInt8) : Prop where
  row : state < a.transitions.length
  action : a.actions[state]? = some (a.action state)
  /-- a state that is left does not end a token -/
  scans : ∀ next, a.next? state (a.classify look) = some next → a.action state = .scan
  next : ∀ next, a.next? state (a.classify look) = some next →
    next < a.transitions.length ∧ a.actions[next]? = some (a.action next)
  /-- a token that ends here is never too short -/
  accept : ∀ next kind, a.next? state (a.classify look) = some next →
    a.action next = .accept kind → a.move state read look = .halt (.accept kind)
  /-- a token that gives a byte back is too short only if it has no other one -/
  pushback : ∀ next kind, a.next? state (a.classify look) = some next →
    a.action next = .acceptWithPushback kind →
    a.move state read look = .halt (.pushback kind) ∨
      read = 1 ∧ a.move state read look = .halt .stuck

inductive Unrecognized (a : Automaton K) (state read : Nat) (look : Option UInt8) : Prop where
  | reached {next : Nat} : a.next? state (a.classify look) = some next →
      a.actions[next]? = some (.accept TokenKind.unrecognized) ∨
        a.actions[next]? = some (.acceptWithPushback TokenKind.unrecognized) →
      Unrecognized a state read look
  | noTransition {row : List Int} : a.transitions[state]? = some row →
      row[a.classify look]? = some noTransition → Unrecognized a state read look
  /-- the input is over, and its end has no column -/
  | outside {row : List Int} : look = none → a.transitions[state]? = some row →
      row.length ≤ a.classify none → Unrecognized a state read look
  /-- the input is over, and the automaton wants to read on -/
  | ended {next : Nat} : look = none → a.next? state (a.classify none) = some next →
      a.actions[next]? = some .scan → Unrecognized a state read look
  /-- the only byte would be given back -/
  | pushback {next : Nat} {kind : K} : read = 1 →
      a.next? state (a.classify look) = some next →
      a.actions[next]? = some (.acceptWithPushback kind) → Unrecognized a state read look

namespace Visits

section
variable (h : a.Visits bs state read) (hwell : a.WellFormed)
include h hwell

theorem state_lt : state < a.transitions.length := by
  cases h with
  | start _ => exact hwell.startState_lt
  | go _ _ hmove => exact (hwell.next_lt (move_eq_go_iff.mp hmove).1).1

variable (hbytes : a.ClassifiesBytes) {next : Nat}
include hbytes

theorem one_le_of_accepting (hnext : a.next? state (a.classify bs[read]?) = some next)
    (haccepting : (a.action next).isAccepting = true) : 1 ≤ read := by
  rw [← hwell.accepts_eq (hwell.next_lt hnext).1] at haccepting
  refine Nat.one_le_iff_ne_zero.mpr fun hzero => ?_
  subst hzero
  obtain ⟨rfl, b, hb⟩ := h.eq_start
  rw [hb] at hnext
  rw [hwell.accepts_next_startState hnext (hbytes b).2] at haccepting
  cases haccepting

/-- **Every look of a run is checked.** -/
theorem checked : a.Checked state read bs[read]? where
  row := h.state_lt hwell
  action := hwell.getElem?_actions (h.state_lt hwell)
  scans next hnext := by
    have hscans := (hwell.next_lt hnext).2
    rw [hwell.accepts_eq (h.state_lt hwell)] at hscans
    cases haction : a.action state with
    | scan => rfl
    | accept kind => rw [haction] at hscans; cases hscans
    | acceptWithPushback kind => rw [haction] at hscans; cases hscans
  next next hnext :=
    ⟨(hwell.next_lt hnext).1, hwell.getElem?_actions (hwell.next_lt hnext).1⟩
  accept next kind hnext haction := by
    have hread := h.one_le_of_accepting hwell hbytes hnext (by rw [haction]; rfl)
    exact move_of_accept hnext haction (Nat.one_le_iff_ne_zero.mp hread)
  pushback next kind hnext haction := by
    have hread := h.one_le_of_accepting hwell hbytes hnext (by rw [haction]; rfl)
    rcases Nat.lt_or_eq_of_le hread with htwo | hone
    · exact Or.inl (move_of_pushback hnext haction htwo)
    · exact Or.inr ⟨hone.symm, move_of_short hnext haction (Nat.le_of_eq hone.symm)⟩

theorem unrecognized_of_next? (hnext : a.next? state (a.classify bs[read]?) = none) :
    a.Unrecognized state read bs[read]? := by
  obtain ⟨row, hrow, hentry | ⟨hwidth, hcolumn⟩⟩ :=
    hwell.noTransition_of_next? (h.state_lt hwell) hnext
  · exact .noTransition hrow hentry
  · cases hlook : bs[read]? with
    | none =>
      rw [hlook] at hcolumn
      exact .outside rfl hrow (hwidth ▸ hcolumn)
    | some b =>
      rw [hlook] at hcolumn
      exact absurd (hbytes b).1 (Nat.not_lt.mpr hcolumn)

/-- **An unrecognized token** has one of the reasons that well-formed tables leave. -/
theorem unrecognized {how : Halt K} (hend : a.EndsAt bs state (read, how))
    (hkind : how.kind = TokenKind.unrecognized) : a.Unrecognized state read bs[read]? := by
  cases hend with
  | ended hnone hmove =>
    obtain ⟨hnext, hscan⟩ := move_eq_go_iff.mp hmove
    refine .ended hnone hnext ?_
    rw [hwell.getElem?_actions (hwell.next_lt hnext).1, hscan]
  | halt hmove =>
    rcases a.move_eq_halt hmove with ⟨hnext, -⟩ | ⟨next, kind, hnext, hcase⟩
    · exact h.unrecognized_of_next? hwell hbytes hnext
    have haction := hwell.getElem?_actions (hwell.next_lt hnext).1
    have hread := h.one_le_of_accepting hwell hbytes hnext
    rcases hcase with ⟨haccept, hhow⟩ | ⟨hpushback, hhow⟩
    · rw [haccept] at haction hread
      rcases hhow with ⟨rfl, -⟩ | ⟨-, hzero⟩
      · exact .reached hnext (Or.inl (hkind ▸ haction))
      · exact absurd hzero (Nat.one_le_iff_ne_zero.mp (hread rfl))
    · rw [hpushback] at haction hread
      rcases hhow with ⟨rfl, -⟩ | ⟨-, hshort⟩
      · exact .reached hnext (Or.inr (hkind ▸ haction))
      · exact .pushback (Nat.le_antisymm hshort (hread rfl)) hnext haction

end

end Visits

theorem cut_fst (a : Automaton K) (bs : List UInt8) :
    (a.cut bs).1 = (a.run startState 0 bs).2.kind := by
  unfold cut
  split
  · next h => rw [h]; rfl
  · next h => rw [h]; rfl
  · next h => rw [h]; rfl

end Automaton

namespace Lexer

variable [TokenKind K]

/-- **What the check of an automaton is good for.**  Every look of a scanner with checked tables is
checked too, and every token that it cuts is cut at one of its looks.  Where the token is an
unrecognized one, the look has one of few reasons for it. -/
theorem checked_of_validate {a : Automaton K} (hvalid : a.validate = .ok ())
    (hbytes : a.ClassifiesBytes) (source : String) (n : Nat) :
    let l := ofText a source
    let rest := (l.take n).2.rest
    (∀ state read, a.Visits rest state read → a.Checked state read rest[read]?) ∧
    (rest ≠ [] → ∃ state read how, a.run Automaton.startState 0 rest = (read, how) ∧
      a.Visits rest state read ∧ a.EndsAt rest state (read, how) ∧
      ((l.token n).kind = TokenKind.unrecognized → a.Unrecognized state read rest[read]?)) := by
  intro l rest
  have hwell := Automaton.wellFormed_of_validate hvalid
  refine ⟨fun state read h => h.checked hwell hbytes, fun hne => ?_⟩
  obtain ⟨state, hvisits, hend⟩ := (Automaton.Visits.start (a := a) hne).exists_endsAt rfl
  refine ⟨state, _, _, rfl, hvisits, hend, fun hkind => ?_⟩
  refine hvisits.unrecognized hwell hbytes hend ?_
  -- the token is what is cut off the bytes that are left
  have hcut := congrArg Token.kind (next_eq_cut (l.take n).2 hne).1
  rw [automaton_take] at hcut
  exact (Automaton.cut_fst a rest).symm.trans (hcut.symm.trans hkind)

open Template in
/-- Every token gives its last byte back, and one that has read a single byte has no token. -/
theorem checked_of_validate_short :
    let a : Automaton Kind := {
      columns := 2
      transitions := [[1, -1], [2, 2], [-1, -1]]
      actions := [.scan, .scan, .acceptWithPushback .content]
      classify := fun look => look.elim 1 fun _ => 0 }
    a.validate = .ok () ∧ a.ClassifiesBytes ∧
    (ofText a "ab").token 0 = ⟨.unrecognized, "a", 1, 1⟩ ∧
    a.Checked 1 1 (some 0x62) ∧
    ∃ state, a.Visits [0x61, 0x62] state 1 ∧ a.Unrecognized state 1 (some 0x62) := by
  intro a
  have hvalid : a.validate = .ok () := by rfl
  have hbytes : a.ClassifiesBytes := fun _ => ⟨Nat.zero_lt_two, Nat.zero_ne_one⟩
  have htoken : (ofText a "ab").token 0 = ⟨.unrecognized, "a", 1, 1⟩ := by rfl
  obtain ⟨hchecked, hcut⟩ := checked_of_validate hvalid hbytes "ab" 0
  obtain ⟨state, read, how, hrun, hvisits, -, hkind⟩ := hcut (by decide)
  obtain ⟨rfl, rfl⟩ : 1 = read ∧ Halt.stuck = how := Prod.mk.inj hrun
  have hgo : a.Visits [0x61, 0x62] 1 1 := .go (.start (by decide)) rfl rfl
  exact ⟨hvalid, hbytes, htoken, hchecked 1 1 hgo, state, hvisits, hkind (by rw [htoken]; rfl)⟩

end Lexer

end TemplateCheck
