import TemplateCheck.Proofs.Automaton.Visits
import TemplateCheck.Proofs.Template.Tokens

/-!
# The template automaton always finds a token

A scanner is prepared for tables that leave it without a token.  The table of the template language
never does.

* `scanningStates`   the states below this number read on, the others end a token
* `leastRead state`  so many bytes of the token have been read, at least, in that state
* `reliable`         what has to be true of a cell of the table for its look to find a state, and a
                     token that is long enough if the state ends one
* `Regular`          the same of a look: what it finds, after so many bytes
* `regular_of_visits`   every look of a run is regular
* `never_stuck`      so every run finds a token

All cells are reliable but one (`reliable_of_ne`).  The cell of the start at the end of the input ends a
token without bytes; but a run begins only where bytes are left, and does not come back to the start.
-/

namespace TemplateCheck.Template

/-! ## the cells of the table -/

def scanningStates : Nat := 9

/-- the state that gives a backslash back -/
def pushbackState : Nat := 9

/-- the state that ends unrecognized input -/
def unrecognizedState : Nat := 13

/-- the bytes of the token that have been read in a scanning state, at least -/
def leastRead (state : Nat) : Nat :=
  [0, 2, 1, 1, 2, 3, 3, 4, 3].getD state 0

/-- A cell holds a state.  It is a scanning state that is not the start, reached by a byte, after one
byte more; or it ends a token, and enough bytes have been read for it. -/
def reliable (state column : Nat) : Bool :=
  match automaton.next? state column with
  | none => false
  | some next =>
    match automaton.action next with
    | .scan =>
      column ≠ Column.endOfInput.index && 0 < next && next < scanningStates &&
        leastRead next ≤ leastRead state + 1
    | .accept kind => 1 ≤ leastRead state && decide (kind = .unrecognized ↔ next = unrecognizedState)
    | .acceptWithPushback kind =>
      2 ≤ leastRead state && kind = .content && next = pushbackState

theorem reliable_of_ne : ∀ state < scanningStates, ∀ column < automaton.columns,
    ¬ (state = Automaton.startState ∧ column = Column.endOfInput.index) →
      reliable state column = true := by
  decide

theorem classify_lt (look : Option UInt8) : automaton.classify look < automaton.columns := by
  show (columnOf look).index < 7
  cases columnOf look <;> decide

theorem classify_eq_endOfInput_iff {look : Option UInt8} :
    automaton.classify look = Column.endOfInput.index ↔ look = none := by
  constructor
  · intro h
    cases look with
    | none => rfl
    | some b =>
      have hindex : (columnOf (some b)).index = Column.endOfInput.index := h
      cases hc : columnOf (some b) with
      | endOfInput => exact absurd hc (columnOf_ne_endOfInput b)
      | _ => rw [hc] at hindex; cases hindex
  · rintro rfl
    rfl

/-! ## the looks of a run -/

/-- A look finds this state, and needs no way out: it reads on only if there is a byte, and a token
that ends is not too short. -/
structure Regular (state read : Nat) (look : Option UInt8) (next : Nat) : Prop where
  found : automaton.next? state (automaton.classify look) = some next
  scan : automaton.action next = .scan →
    look ≠ none ∧ 0 < next ∧ next < scanningStates ∧ leastRead next ≤ read + 1
  accept : ∀ kind, automaton.action next = .accept kind →
    1 ≤ read ∧ (kind = .unrecognized ↔ next = unrecognizedState)
  pushback : ∀ kind, automaton.action next = .acceptWithPushback kind →
    2 ≤ read ∧ kind = .content ∧ next = pushbackState

variable {state read : Nat} {look : Option UInt8} {bs : List UInt8}

theorem exists_regular (hstate : state < scanningStates) (hread : leastRead state ≤ read)
    (hlook : ¬ (state = Automaton.startState ∧ look = none)) : ∃ next, Regular state read look next := by
  have hcell := reliable_of_ne state hstate (automaton.classify look) (classify_lt look)
    (fun h => hlook ⟨h.1, classify_eq_endOfInput_iff.mp h.2⟩)
  cases hnext : automaton.next? state (automaton.classify look) with
  | none =>
    rw [reliable, hnext] at hcell
    cases hcell
  | some next =>
    refine ⟨next, hnext, fun haction => ?_, fun kind haction => ?_, fun kind haction => ?_⟩
    · simp only [reliable, hnext, haction, Bool.and_eq_true, decide_eq_true_eq] at hcell
      obtain ⟨⟨⟨hcolumn, hpos⟩, hlt⟩, hle⟩ := hcell
      refine ⟨fun hnone => hcolumn (classify_eq_endOfInput_iff.mpr hnone), hpos, hlt, ?_⟩
      exact Nat.le_trans hle (Nat.succ_le_succ hread)
    · simp only [reliable, hnext, haction, Bool.and_eq_true, decide_eq_true_eq] at hcell
      exact ⟨Nat.le_trans hcell.1 hread, hcell.2⟩
    · simp only [reliable, hnext, haction, Bool.and_eq_true, decide_eq_true_eq] at hcell
      obtain ⟨⟨hle, hkind⟩, hback⟩ := hcell
      exact ⟨Nat.le_trans hle hread, hkind, hback⟩

/-- A run looks in scanning states only, after enough bytes; and where it looks in the start, a byte
is left. -/
theorem scanning_of_visits (h : automaton.Visits bs state read) :
    state < scanningStates ∧ leastRead state ≤ read ∧
      ¬ (state = Automaton.startState ∧ bs[read]? = none) := by
  induction h with
  | start hne =>
    refine ⟨by decide, Nat.le_refl 0, fun hnone => hne ?_⟩
    exact List.length_eq_zero_iff.mp (Nat.le_zero.mp (List.getElem?_eq_none_iff.mp hnone.2))
  | @go state read next b hvisits hb hmove ih =>
    obtain ⟨hstate, hread, hlook⟩ := ih
    obtain ⟨found, hfound⟩ := exists_regular hstate hread hlook
    obtain ⟨hnext, hscan⟩ := Automaton.move_eq_go_iff.mp hmove
    rw [← hb] at hnext
    obtain rfl := Option.some.inj (hfound.found.symm.trans hnext)
    obtain ⟨-, hpos, hlt, hle⟩ := hfound.scan hscan
    exact ⟨hlt, hle, fun hnone => Nat.ne_of_gt hpos hnone.1⟩

/-- **Every look of a run is regular.** -/
theorem regular_of_visits (h : automaton.Visits bs state read) :
    ∃ next, Regular state read bs[read]? next := by
  obtain ⟨hstate, hread, hlook⟩ := scanning_of_visits h
  exact exists_regular hstate hread hlook

/-- A run that ends at a regular look has found a token, and only one state makes it an unrecognized
one. -/
theorem Regular.kind_of_endsAt {next : Nat} {how : Halt Kind}
    (h : Regular state read bs[read]? next) (hend : automaton.EndsAt bs state (read, how)) :
    how ≠ .stuck ∧ (how.kind = .unrecognized ↔ next = unrecognizedState) := by
  cases hend with
  | @ended _ found hnone hmove =>
    obtain ⟨hfound, hscan⟩ := Automaton.move_eq_go_iff.mp hmove
    rw [← hnone] at hfound
    obtain rfl := Option.some.inj (h.found.symm.trans hfound)
    exact absurd hnone (h.scan hscan).1
  | halt hmove =>
    rcases automaton.move_eq_halt hmove with ⟨hnone, -⟩ | ⟨found, kind, hfound, hcase⟩
    · cases h.found.symm.trans hnone
    obtain rfl := Option.some.inj (h.found.symm.trans hfound)
    rcases hcase with ⟨haction, hhow⟩ | ⟨haction, hhow⟩
    · obtain ⟨hread, hkind⟩ := h.accept kind haction
      rcases hhow with ⟨rfl, -⟩ | ⟨-, hzero⟩
      · exact ⟨nofun, hkind⟩
      · omega
    · obtain ⟨hread, rfl, rfl⟩ := h.pushback kind haction
      rcases hhow with ⟨rfl, -⟩ | ⟨-, hshort⟩
      · exact ⟨nofun, iff_of_false nofun nofun⟩
      · omega

/-! ## the tokens of a template -/

/-- **A template lexer is never stuck.**  Whatever number of tokens has been taken, every look at the
bytes that are left is regular; if bytes are left, the next token is one that the automaton has found at
one of these looks, and it is an unrecognized token exactly if that look led to the one state for it.
The closing token comes when all bytes have been read, and not before. -/
theorem never_stuck (source : String) (n : Nat) :
    let l : Lexer Kind := lexer source
    let rest := (l.take n).2.rest
    (∀ state read, automaton.Visits rest state read → ∃ next, Regular state read rest[read]? next) ∧
    (rest ≠ [] → ∃ state read next how, automaton.Visits rest state read ∧
      automaton.next? state (automaton.classify rest[read]?) = some next ∧
      automaton.run Automaton.startState 0 rest = (read, how) ∧ how ≠ .stuck ∧
      (l.token n).kind = how.kind ∧ ((l.token n).kind = .unrecognized ↔ next = unrecognizedState)) ∧
    ((l.token n).kind = .endOfInput ↔ l.boundary n = (Utf8.encode source).length) := by
  intro l rest
  have ha : (l.take n).2.automaton = automaton := Lexer.automaton_take l n
  refine ⟨fun state read h => regular_of_visits h, fun hne => ?_, ?_⟩
  · obtain ⟨state, hvisits, hend⟩ :=
      (Automaton.Visits.start (a := automaton) hne).exists_endsAt rfl
    obtain ⟨next, hregular⟩ := regular_of_visits hvisits
    obtain ⟨hhow, hkind⟩ := hregular.kind_of_endsAt hend
    -- the token is what is cut off the bytes that are left
    have htoken := congrArg Token.kind (Lexer.next_eq_cut (l.take n).2 hne).1
    rw [ha] at htoken
    have hcut := htoken.trans (Automaton.cut_fst automaton rest)
    exact ⟨state, _, next, _, hvisits, hregular.found, rfl, hhow, hcut, hcut ▸ hkind⟩
  · rw [Lexer.token, kind_next_eq_endOfInput_iff ha]
    exact ((Lexer.reads_ofText automaton source).take n).rest_eq_nil_iff

end TemplateCheck.Template
