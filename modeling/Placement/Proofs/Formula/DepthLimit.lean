import Placement.Proofs.Formula.Depth
import Placement.Proofs.Formula.Occurrence

namespace Placement

/-- A limit refuses a call with as many calls around it. -/
def Occurrence.refusal? (limit : Nat) (o : Occurrence) : Option Failure :=
  match o.token with
  | .call name _ =>
    if o.depth = limit then some (Conversion.fail (.tooDeep name limit) o.position) else none
  | _ => none

theorem Occurrence.refusal?_eq_some_iff {limit : Nat} {o : Occurrence} {failure : Failure} :
    o.refusal? limit = some failure ↔ ∃ name arguments, o.token = .call name arguments ∧
      o.depth = limit ∧ failure = Conversion.fail (.tooDeep name limit) o.position := by
  unfold refusal?
  split
  · rename_i name arguments isCall
    simp [isCall, eq_comm]
  · rename_i noCall
    constructor
    · intro none
      cases none
    · rintro ⟨name, arguments, isCall, _⟩
      exact absurd isCall (noCall name arguments)

theorem Occurrence.refusal?_ne_none {limit : Nat} {o : Occurrence}
    (isCall : o.token.isCall = true) (atDepth : o.depth = limit) : o.refusal? limit ≠ none := by
  cases token : o.token with
  | call name arguments =>
    intro none
    rw [refusal?_eq_some_iff.mpr ⟨name, arguments, token, atDepth, rfl⟩] at none
    cases none
  | _ =>
    rw [token] at isCall
    cases isCall

theorem findSome?_flatMap {α β γ : Type} (f : α → List β) (g : β → Option γ) (entries : List α) :
    (entries.flatMap f).findSome? g = entries.findSome? fun entry => (f entry).findSome? g := by
  induction entries with
  | nil => rfl
  | cons first rest ih =>
    rw [List.flatMap_cons, List.findSome?_append, ih, List.findSome?_cons]
    cases (f first).findSome? g <;> rfl

namespace Conversion

variable {call limited : CallReader}

/-- Another reader of calls changes a step only where it reads the call otherwise. -/
theorem step_refused {placed : Placed} {refusal? : Option Failure}
    (atCall : ∀ name arguments, placed.token = .call name arguments →
      ∀ node, call name arguments placed.position = .ok node →
        limited name arguments placed.position = refusal?.elim (.ok node) .error)
    (elsewhere : placed.token.isCall = false → refusal? = none) {state next : Conversion}
    (stepped : step call state placed = .ok next) :
    step limited state placed = refusal?.elim (.ok next) .error := by
  obtain ⟨token, position⟩ := placed
  cases token with
  | call name arguments =>
    obtain ⟨node, made, rfl⟩ := map_eq_ok_iff.mp stepped
    change (limited name arguments position).map state.emit = _
    rw [atCall name arguments rfl node made]
    cases refusal? <;> rfl
  | _ =>
    rw [elsewhere rfl]
    exact stepped

/-- The first refusal ends the reading of the tokens. -/
theorem foldlM_step_refused {refusal? : Placed → Option Failure} {placed : List Placed}
    {state last : Conversion}
    (steps : ∀ token ∈ placed, ∀ state next, step call state token = .ok next →
      step limited state token = (refusal? token).elim (.ok next) .error)
    (run : placed.foldlM (step call) state = .ok last) :
    placed.foldlM (step limited) state = (placed.findSome? refusal?).elim (.ok last) .error := by
  induction placed generalizing state with
  | nil => exact run
  | cons first rest ih =>
    obtain ⟨next, stepped, run⟩ := of_foldlM_step_cons run
    have atFirst := steps first List.mem_cons_self state next stepped
    rw [List.findSome?_cons]
    cases refused : refusal? first with
    | none =>
      rw [refused] at atFirst
      rw [foldlM_step_cons atFirst]
      exact ih (fun token member => steps token (List.mem_cons_of_mem _ member)) run
    | some failure =>
      rw [refused] at atFirst
      rw [List.foldlM_cons, atFirst]
      rfl

theorem run_refused {refusal? : Placed → Option Failure} {text : List Char}
    {found : List (List Node)}
    (steps : ∀ token ∈ (scan text).tokens, ∀ state next, step call state token = .ok next →
      step limited state token = (refusal? token).elim (.ok next) .error)
    (read : run call text = .ok found) :
    run limited text = ((scan text).tokens.findSome? refusal?).elim (.ok found) .error := by
  obtain ⟨state, done, behind, folded, ending, ended, rfl⟩ := run_eq_ok_iff_steps.mp read
  have again := foldlM_step_refused steps folded
  cases refused : (scan text).tokens.findSome? refusal? with
  | none =>
    rw [refused] at again
    exact run_eq_ok_iff_steps.mpr ⟨state, done, behind, again, ending, ended, rfl⟩
  | some failure =>
    rw [refused] at again
    rw [run, again]
    rfl

end Conversion

namespace Limits

theorem reader_succ (limit most inner depth : Nat) (name : String) (arguments : List Char)
    (position : Nat) : reader ⟨some limit, most⟩ (inner + 1) depth name arguments position =
      if limit < depth + 1 then .error (Conversion.fail (.tooDeep name limit) position)
      else callNode (Placement.sequences ⟨some limit, most⟩ inner (depth + 1)) name arguments := by
  change (if limit < depth + 1 then _ else _) >>= _ = _
  split <;> rfl

/-- The first refusal of a call and the tokens inside of it: its own one if it stands as deep as
is refused, else one in its arguments. -/
theorem reader_refused {limit most levels depth : Nat} (start : Nat) {name : String}
    {arguments : List Char} {position : Nat} {node : Node} (within : depth ≤ limit)
    (inside : ∀ inner found, levels = inner + 1 → depth + 1 ≤ limit →
      Placement.sequences ⟨none, most⟩ inner (depth + 1) arguments = .ok found →
      Placement.sequences ⟨some limit, most⟩ inner (depth + 1) arguments =
        ((walkInside List.cons depth start (.call name arguments)).findSome?
          (·.refusal? limit)).elim (.ok found) .error)
    (made : reader ⟨none, most⟩ levels depth name arguments position = .ok node) :
    reader ⟨some limit, most⟩ levels depth name arguments position =
      ((⟨.call name arguments, position, start, depth⟩ ::
          walkInside List.cons depth start (.call name arguments)).findSome?
        (·.refusal? limit)).elim (.ok node) .error := by
  obtain ⟨_, inner, sequences, rfl, rfl, readInner⟩ := reader_eq_ok_iff.mp made
  rw [List.findSome?_cons, reader_succ]
  by_cases here : depth = limit
  · have refused : (⟨.call name arguments, position, start, depth⟩ : Occurrence).refusal? limit =
        some (Conversion.fail (.tooDeep name limit) position) := if_pos here
    rw [refused, if_pos (by omega)]
    rfl
  · have passed : (⟨.call name arguments, position, start, depth⟩ : Occurrence).refusal? limit =
        none := if_neg here
    rw [passed, if_neg (by omega)]
    unfold callNode
    split
    · rename_i blank
      rw [if_pos blank] at readInner
      rw [walkInside, walk_of_blank _ _ _ blank, readInner]
      rfl
    · rename_i written
      rw [if_neg written] at readInner
      rw [inside inner sequences rfl (by omega) readInner]
      cases (walkInside List.cons depth start (.call name arguments)).findSome?
        (·.refusal? limit) <;> rfl

/-- Inside of no more calls than the limit allows, a text is read as without the limit, up to
the first call that is refused. -/
theorem sequences_refused {limit most levels depth : Nat} (offset : Nat) {text : List Char}
    {found : List (List Node)} (read : Placement.sequences ⟨none, most⟩ levels depth text = .ok found)
    (within : depth ≤ limit) :
    Placement.sequences ⟨some limit, most⟩ levels depth text =
      ((walk List.cons depth offset text).findSome?
        (·.refusal? limit)).elim (.ok found) .error := by
  induction levels using Nat.strongRecOn generalizing depth offset text found with
  | ind levels ih =>
    rw [sequences_eq_run] at read ⊢
    rw [walk_eq, findSome?_flatMap]
    refine Conversion.run_refused (fun placed member state next stepped => ?_) read
    refine Conversion.step_refused (fun name arguments isCall node made => ?_) (fun noCall => ?_)
      stepped
    · rw [isCall]
      refine reader_refused _ within (fun inner found same deeper readInner => ?_) made
      exact ih inner (by omega) _ readInner deeper
    · cases isToken : placed.token with
      | call name arguments =>
        rw [isToken] at noCall
        cases noCall
      | _ => rfl

theorem parse_refused {limit levels : Nat} {text : List Char} {nodes : List Node}
    (parsed : parse { levels } text = .ok nodes) : parse ⟨some limit, levels⟩ text =
      ((occurrences text).findSome? (·.refusal? limit)).elim (.ok nodes) .error := by
  obtain ⟨written, read⟩ := parse_eq_ok_iff.mp parsed
  have limited := sequences_refused 0 read (Nat.zero_le limit)
  unfold parse
  rw [if_neg (by simp [written]), limited, occurrences]
  cases (walk List.cons 0 0 text).findSome? (·.refusal? limit) <;> rfl

end Limits

/-- In a list in reading order, what comes first is what begins first. -/
theorem Occurrence.start_le_of_first {before after : List Occurrence} {o : Occurrence}
    (ordered : (before ++ o :: after).Pairwise (·.start < ·.start)) {other : Occurrence}
    (member : other ∈ before ++ o :: after) (notBefore : other ∉ before) :
    o.start ≤ other.start := by
  rcases List.mem_append.mp member with earlier | later
  · exact absurd earlier notBefore
  · rcases List.mem_cons.mp later with rfl | behind
    · exact Nat.le_refl _
    · have apart := (List.pairwise_cons.mp (List.pairwise_append.mp ordered).2.1).1 other behind
      exact Nat.le_of_lt apart

/-- Under a limit on the depth a text is read exactly if it is read without a limit and its calls
nest no deeper, and to the same nodes. A text whose calls nest deeper is refused for the first call
in reading order with as many calls around it as the limit allows. So a higher limit accepts
whatever a lower one does. -/
theorem parse_limited (text : List Char) (limit levels : Nat) :
    (∀ nodes, parse ⟨some limit, levels⟩ text = .ok nodes ↔
      parse { levels } text = .ok nodes ∧ Node.depthSequence nodes ≤ limit) ∧
    (∀ nodes, parse { levels } text = .ok nodes → limit < Node.depthSequence nodes →
      ∃ o ∈ occurrences text, ∃ name arguments, o.token = .call name arguments ∧ o.depth = limit ∧
        (∀ other ∈ occurrences text, other.token.isCall = true → other.depth = limit →
          o.start ≤ other.start) ∧
        ∃ failure, parse ⟨some limit, levels⟩ text = .error failure ∧
          failure = .formula (.parse (.tooDeep name limit) (some o.position)) ∧
          failure.message = "Call to '" ++ name ++ "' exceeds maximum nesting depth " ++
            writeInt limit ++ " at position " ++ writeInt o.position) ∧
    ∀ more, limit ≤ more → ∀ nodes, parse ⟨some limit, levels⟩ text = .ok nodes →
      parse ⟨some more, levels⟩ text = .ok nodes := by
  have decides (limit : Nat) (nodes : List Node) : parse ⟨some limit, levels⟩ text = .ok nodes ↔
      parse { levels } text = .ok nodes ∧ Node.depthSequence nodes ≤ limit := by
    rw [Limits.parse_eq_ok_iff_depth]
    simp only [Limits.Allows, Option.some.injEq, forall_eq']
  refine ⟨decides limit, fun nodes parsed deep => ?_, fun more le nodes parsed => ?_⟩
  · have limited : parse ⟨some limit, levels⟩ text = _ := Limits.parse_refused parsed
    cases refused : (occurrences text).findSome? (·.refusal? limit) with
    | none =>
      rw [refused] at limited
      have within := ((decides limit nodes).mp limited).2
      omega
    | some failure =>
      rw [refused] at limited
      obtain ⟨before, o, after, split, atFirst, passed⟩ := List.findSome?_eq_some_iff.mp refused
      obtain ⟨name, arguments, isCall, atDepth, rfl⟩ := Occurrence.refusal?_eq_some_iff.mp atFirst
      have ordered := occurrences_pairwise text
      rw [split] at ordered ⊢
      refine ⟨o, by simp, name, arguments, isCall, atDepth, fun other member call depth => ?_,
        _, limited, rfl, rfl⟩
      exact Occurrence.start_le_of_first ordered member fun earlier =>
        Occurrence.refusal?_ne_none call depth (passed other earlier)
  · obtain ⟨unlimited, within⟩ := (decides limit nodes).mp parsed
    exact (decides more nodes).mpr ⟨unlimited, Nat.le_trans within le⟩

/-- Two nested calls: the second one is refused where one is allowed, and none where two or three
are. -/
theorem second_call_refused :
    parse {} "max(x, min(y))".toList =
        .ok [.call "max" [[.variable "x"], [.call "min" [[.variable "y"]]]]] ∧
      (∃ name position, parse { maxDepth := some 1 } "max(x, min(y))".toList =
        .error (.formula (.parse (.tooDeep name 1) (some position)))) ∧
      parse { maxDepth := some 3 } "max(x, min(y))".toList =
        .ok [.call "max" [[.variable "x"], [.call "min" [[.variable "y"]]]]] := by
  have parsed : parse {} "max(x, min(y))".toList =
      .ok [.call "max" [[.variable "x"], [.call "min" [[.variable "y"]]]]] := by decide +kernel
  obtain ⟨two, _, higher⟩ := parse_limited "max(x, min(y))".toList 2 usualLevels
  obtain ⟨o, _, name, _, _, _, _, _, refused, rfl, _⟩ :=
    (parse_limited "max(x, min(y))".toList 1 usualLevels).2.1 _ parsed (by decide)
  exact ⟨parsed, ⟨name, o.position, refused⟩,
    higher 3 (by decide) _ ((two _).mpr ⟨parsed, by decide⟩)⟩

end Placement
