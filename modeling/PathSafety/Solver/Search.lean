import Std.Sat.CNF
import Std.Tactic.BVDecide.LRAT.Actions

/-!
# Clause-learning search

A search for a satisfying assignment of a formula in conjunctive normal form: unit propagation over two
watched literals per clause, conflicts analysed to the first unique implication point, the variables of
recent conflicts decided first, restarts after Luby's sequence.

Nothing is proved here. A model is checked by evaluating the conditions it is for, and a refutation is
written as steps that a verified checker replays (`PathSafety.Solver.Basic`); what the search returns is
only a hint.

Variable `v` has the literals `2 * v` and `2 * v + 1`, the second being the negation.
-/

namespace PathSafety.Search

open Std.Sat Std.Tactic.BVDecide.LRAT

/-- What a search found. -/
inductive Outcome where
  | model (values : Array Bool)
  | refuted (steps : Array IntAction)
  | gaveUp

/-- The state of a search. A clause is stored in `lits` as its length, its number and its literals; the
places of these blocks serve as clause references, and the first two literals of a block are watched. -/
structure State where
  lits : Array Nat
  /-- Per literal, the clauses to visit when it becomes false, each followed by one of its literals. -/
  watches : Array (Array Nat)
  /-- Per literal: 0 open, 1 true, 2 false. -/
  value : Array Nat
  level : Array Nat
  /-- Per variable, one more than the clause that forced it, or 0. -/
  reason : Array Nat
  /-- Per variable, the number of a clause that is its value alone, or 0. -/
  unitId : Array Nat
  trail : Array Nat
  /-- The length of the trail at each decision. -/
  marks : Array Nat
  head : Nat
  /-- The variables as a doubly linked list, the last one decided first; `nil` is the variable count. -/
  before : Array Nat
  after : Array Nat
  stamp : Array Nat
  last : Nat
  cursor : Nat
  clock : Nat
  phase : Array Nat
  seen : Array Bool
  nextId : Nat
  steps : Array IntAction

@[inline] def neg (l : Nat) : Nat := l ^^^ 1

@[inline] def at0 (a : Array Nat) (i : Nat) : Nat := a.getD i 0

namespace State

@[inline] def valueOf (s : State) (l : Nat) : Nat := at0 s.value l

/-- Makes a literal true. -/
def assign (s : State) (l reason : Nat) : State :=
  let v := l / 2
  let lvl := s.marks.size
  { s with
    value := (s.value.set! l 1).set! (neg l) 2
    level := s.level.set! v lvl
    reason := s.reason.set! v reason
    trail := s.trail.push l }

def watch (s : State) (l clause other : Nat) : State :=
  { s with watches := s.watches.modify l fun w => (w.push clause).push other }

/-- The first position from `k` to `stop` that holds a literal which is not false. -/
def findOpen (lits value : Array Nat) (k stop : Nat) : Option Nat :=
  if _h : k < stop then
    if at0 value (at0 lits k) != 2 then some k else findOpen lits value (k + 1) stop
  else none
termination_by stop - k

/-- Moves the entries of `w` from `i` on down to `j`. -/
def compact (w : Array Nat) (i j : Nat) : Array Nat :=
  if _h : i < w.size then
    let w' := w.set! j (at0 w i)
    compact w' (i + 1) (j + 1)
  else w.shrink j
termination_by w.size - i
decreasing_by simp +zetaDelta; omega

/-- Visits the clauses watching the false literal `l`: `w` is its list of watches, of which the entries
before `j` stay. Returns the list left and the clause that became false, if there is one. -/
def visit (l : Nat) : Nat → State → Array Nat → Nat → Nat → State × Array Nat × Option Nat
  | 0, s, w, _, _ => (s, w, none)
  | fuel + 1, s, w, i, j =>
    if i ≥ w.size then (s, w.shrink j, none)
    else
      let c := at0 w i
      let other := at0 w (i + 1)
      if s.valueOf other == 1 then
        visit l fuel s ((w.set! j c).set! (j + 1) other) (i + 2) (j + 2)
      else
        let first := at0 s.lits (c + 2)
        let s :=
          if first == l then
            { s with lits := (s.lits.set! (c + 2) (at0 s.lits (c + 3))).set! (c + 3) l }
          else s
        let first := at0 s.lits (c + 2)
        if first != other && s.valueOf first == 1 then
          visit l fuel s ((w.set! j c).set! (j + 1) first) (i + 2) (j + 2)
        else
          match findOpen s.lits s.value (c + 4) (c + 2 + at0 s.lits c) with
          | some k =>
            let new := at0 s.lits k
            let s := { s with lits := (s.lits.set! (c + 3) new).set! k l }
            visit l fuel (s.watch new c first) w (i + 2) j
          | none =>
            let w := (w.set! j c).set! (j + 1) first
            if s.valueOf first == 2 then
              (s, compact w (i + 2) (j + 2), some c)
            else
              visit l fuel (s.assign first (c + 1)) w (i + 2) (j + 2)

/-- Propagates the literals of the trail that have not been looked at. -/
def propagate : Nat → State → State × Option Nat
  | 0, s => (s, none)
  | fuel + 1, s =>
    if s.head ≥ s.trail.size then (s, none)
    else
      let l := neg (at0 s.trail s.head)
      let w := s.watches.getD l #[]
      let s := { s with head := s.head + 1, watches := s.watches.set! l #[] }
      let (s, w, conflict) := visit l (w.size + 1) s w 0 0
      let s := { s with watches := s.watches.modify l fun new => if new.isEmpty then w else w ++ new }
      match conflict with
      | some c => ({ s with head := s.trail.size }, some c)
      | none => propagate fuel s

/-- The literals of a clause. -/
def clauseLits (s : State) (c : Nat) : List Nat :=
  (s.lits.extract (c + 2) (c + 2 + at0 s.lits c)).toList

/-- The signed number that stands for a literal in a refutation. -/
def signed (l : Nat) : Int := if l % 2 == 0 then Int.ofNat (l / 2 + 1) else -Int.ofNat (l / 2 + 1)

/-- Records a clause that follows from those with the given numbers, in the order of propagation. -/
def record (s : State) (c : List Nat) (hints : Array Nat) : State :=
  let step : IntAction := match c with
    | [] => .addEmpty s.nextId hints
    | c => .addRup s.nextId (c.map signed).toArray hints
  { s with steps := s.steps.push step, nextId := s.nextId + 1 }

/-- Records, for each literal forced before any decision from place `i` of the trail on, the clause that
is this literal alone. -/
def recordUnits : Nat → State → Nat → State
  | 0, s, _ => s
  | fuel + 1, s, i =>
    if i ≥ s.trail.size then s
    else
      let l := at0 s.trail i
      let v := l / 2
      let r := at0 s.reason v
      if r == 0 then recordUnits fuel s (i + 1)
      else
        let c := r - 1
        let units := (s.clauseLits c).filterMap fun m =>
          if m == l then none else some (at0 s.unitId (m / 2))
        let id := at0 s.lits (c + 1)
        let s :=
          if units.isEmpty then { s with unitId := s.unitId.set! v id }
          else
            let s := { s with unitId := s.unitId.set! v s.nextId }
            s.record [l] (units.toArray.push id)
        recordUnits fuel s (i + 1)

/-- Takes back the assignments after place `n` of the trail. -/
def undo : Nat → State → Nat → State
  | 0, s, _ => s
  | fuel + 1, s, n =>
    if s.trail.size ≤ n then { s with head := n }
    else
      let l := at0 s.trail (s.trail.size - 1)
      let v := l / 2
      let s := { s with
        trail := s.trail.pop
        value := (s.value.set! l 0).set! (neg l) 0
        phase := s.phase.set! v (l % 2)
        cursor := if at0 s.stamp v > at0 s.stamp s.cursor then v else s.cursor }
      undo fuel s n

def backtrack (s : State) (lvl : Nat) : State :=
  if lvl < s.marks.size then
    let n := at0 s.marks lvl
    let s := undo (s.trail.size + 1) s n
    { s with marks := s.marks.shrink lvl }
  else s

/-- Moves a variable to the end of the list. -/
def bump (s : State) (v : Nat) : State :=
  if s.last == v then s
  else
    let nil := s.level.size
    let b := at0 s.before v
    let a := at0 s.after v
    let after := if b == nil then s.after else s.after.set! b a
    let before := if a == nil then s.before else s.before.set! a b
    let clock := s.clock + 1
    let s := { s with
      before := before.set! v s.last
      after := (after.set! v nil).set! s.last v
      last := v
      clock := clock
      stamp := s.stamp.set! v clock }
    if s.valueOf (2 * v) == 0 then { s with cursor := v } else s

/-- What the analysis of a conflict has gathered: learned literals of lower levels, the numbers of the
clauses resolved (the conflict first), units used, variables met, and how many literals of the current
level are open. -/
structure Analysis where
  learned : List Nat := []
  hints : List Nat := []
  units : List Nat := []
  met : List Nat := []
  pending : Nat := 0

/-- Takes the literals of a clause into an analysis. -/
def absorb (skip : Nat) : List Nat → State → Analysis → State × Analysis
  | [], s, a => (s, a)
  | l :: ls, s, a =>
    let v := l / 2
    if l == skip || s.seen.getD v false then absorb skip ls s a
    else
      let lvl := at0 s.level v
      let s := { s with seen := s.seen.set! v true }
      if lvl == 0 then
        absorb skip ls s { a with units := at0 s.unitId v :: a.units, met := v :: a.met }
      else if lvl == s.marks.size then
        absorb skip ls s { a with pending := a.pending + 1, met := v :: a.met }
      else
        absorb skip ls s { a with learned := l :: a.learned, met := v :: a.met }

/-- Resolves backwards along the trail until one literal of the current level is left; returns it. -/
def resolve : Nat → State → Analysis → Nat → State × Analysis × Nat
  | 0, s, a, _ => (s, a, 0)
  | fuel + 1, s, a, i =>
    let l := at0 s.trail i
    let v := l / 2
    if !s.seen.getD v false then resolve fuel s a (i - 1)
    else if a.pending ≤ 1 then (s, a, l)
    else
      let c := at0 s.reason v - 1
      let a := { a with pending := a.pending - 1, hints := at0 s.lits (c + 1) :: a.hints }
      let (s, a) := absorb l (s.clauseLits c) s a
      resolve fuel s a (i - 1)

/-- Whether a learned literal follows from the others by its reason. -/
def redundant (s : State) (l : Nat) : Bool :=
  let r := at0 s.reason (l / 2)
  r != 0 && (s.clauseLits (r - 1)).all fun m =>
    m / 2 == l / 2 || (s.seen.getD (m / 2) false && at0 s.level (m / 2) != 0)

/-- Adds a clause of at least two literals and watches its first two. -/
def addClause (s : State) (c : List Nat) (id : Nat) : State × Nat :=
  let ref := s.lits.size
  let s := { s with lits := ((s.lits.push c.length).push id) ++ c.toArray }
  match c with
  | a :: b :: _ => ((s.watch a ref b).watch b ref a, ref)
  | _ => (s, ref)

/-- The numbers of the reasons of false literals, in the order in which they were propagated. -/
def reasonsInOrder (s : State) (ls : List Nat) : List Nat :=
  let vars := ls.map (· / 2)
  if vars.isEmpty then []
  else s.trail.toList.filterMap fun l =>
    if vars.contains (l / 2) then some (at0 s.lits (at0 s.reason (l / 2))) else none

/-- Learns from a conflict and jumps back; the learned clause then forces a literal. -/
def learn (s : State) (conflict : Nat) : State :=
  let a : Analysis := { hints := [at0 s.lits (conflict + 1)] }
  let (s, a) := absorb (s.value.size + 2) (s.clauseLits conflict) s a
  let (s, a, top) := resolve (s.trail.size + 1) s a (s.trail.size - 1)
  let (dropped, kept) := a.learned.partition s.redundant
  let place (l : Nat) : Nat := at0 s.level (l / 2)
  let droppedHints := s.reasonsInOrder dropped
  let kept := (kept.toArray.qsort fun x y => place x > place y).toList
  let clause := neg top :: kept
  let hints := (a.units ++ droppedHints ++ a.hints).toArray
  let target := match kept with
    | [] => 0
    | l :: _ => place l
  let met := (a.met.toArray.qsort fun x y => at0 s.stamp x < at0 s.stamp y).toList
  let s := met.foldl (fun s v => { s with seen := s.seen.set! v false }) s
  let s := s.backtrack target
  let s := met.foldl bump s
  let id := s.nextId
  let s := s.record clause hints
  match clause with
  | [l] =>
    let s := { s with unitId := s.unitId.set! (l / 2) id }
    s.assign l 0
  | _ =>
    let (s, ref) := s.addClause clause id
    s.assign (neg top) (ref + 1)

/-- The variable to decide: the last one in the list that is open. -/
def pick : Nat → State → Nat → Option Nat
  | 0, _, _ => none
  | fuel + 1, s, v =>
    if v == s.level.size then none
    else if s.valueOf (2 * v) == 0 then some v
    else pick fuel s (at0 s.before v)

end State

/-- The `i`-th member of Luby's sequence 1, 1, 2, 1, 1, 2, 4, ... -/
def luby : Nat → Nat → Nat
  | 0, _ => 1
  | fuel + 1, i =>
    let k := Nat.log2 (i + 1)
    if i + 1 == 1 <<< k then 1 <<< (k - 1) else luby fuel (i + 1 - 1 <<< k)

/-- The search itself: propagate, learn from a conflict or decide. `budget` counts down to a restart. -/
def run : Nat → State → Nat → Nat → Outcome
  | 0, _, _, _ => .gaveUp
  | fuel + 1, s, budget, round =>
    let start := s.head
    let (s, conflict) := s.propagate (s.value.size + 1)
    let s := if s.marks.isEmpty then s.recordUnits (s.trail.size + 1) start else s
    match conflict with
    | some c =>
      if s.marks.isEmpty then
        let units := (s.clauseLits c).map fun m => at0 s.unitId (m / 2)
        .refuted (s.record [] (units.toArray.push (at0 s.lits (c + 1)))).steps
      else run fuel (s.learn c) (budget - 1) round
    | none =>
      if budget == 0 && !s.marks.isEmpty then
        run fuel (s.backtrack 0) (64 * luby 64 (round + 1)) (round + 1)
      else
        match s.pick (s.level.size + 1) s.cursor with
        | none => .model ((Array.range s.level.size).map fun v => s.valueOf (2 * v) == 1)
        | some v =>
          let s := { s with marks := s.marks.push s.trail.size, cursor := v }
          run fuel (s.assign (2 * v + at0 s.phase v) 0) budget round

/-- A state over `n` variables without clauses. -/
def State.initial (n : Nat) (clauses : Nat) : State where
  lits := #[]
  watches := Array.replicate (2 * n) #[]
  value := Array.replicate (2 * n) 0
  level := Array.replicate n 0
  reason := Array.replicate n 0
  unitId := Array.replicate n 0
  trail := #[]
  marks := #[]
  head := 0
  before := (Array.range n).map fun v => if v == 0 then n else v - 1
  after := (Array.range n).map (· + 1)
  stamp := Array.range n
  last := n - 1
  cursor := n - 1
  clock := n
  phase := Array.replicate n 1
  seen := Array.replicate n false
  nextId := clauses + 1
  steps := #[]

/-- The literals of a clause, without repetitions. -/
def codes (c : CNF.Clause Nat) : List Nat :=
  (c.map fun (v, positive) => if positive then 2 * v else 2 * v + 1).eraseDups

/-- Takes the clause number `id` into a state; the result is a refutation if it is false already. -/
def State.load (s : State) (c : List Nat) (id : Nat) : State × Option Outcome :=
  if c.any fun l => c.contains (neg l) then (s, none)
  else match c with
    | [] => (s, some (.refuted #[.addEmpty s.nextId #[id]]))
    | [l] =>
      if s.valueOf l == 1 then (s, none)
      else if s.valueOf l == 2 then
        (s, some (.refuted #[.addEmpty s.nextId #[at0 s.unitId (l / 2), id]]))
      else
        (({ s with unitId := s.unitId.set! (l / 2) id }).assign l 0, none)
    | c => ((s.addClause c id).1, none)

/-- Takes all clauses into a state. -/
def State.loadAll : List (CNF.Clause Nat) → Nat → State → State × Option Outcome
  | [], _, s => (s, none)
  | c :: cs, id, s =>
    match s.load (codes c) id with
    | (s, some o) => (s, some o)
    | (s, none) => loadAll cs (id + 1) s

/-- Searches for a model of a formula, or a refutation. -/
def search (f : CNF Nat) : Outcome :=
  let n := f.clauses.foldl (fun n c => c.foldl (fun n l => max n (l.1 + 1)) n) 0
  let s := State.initial n f.clauses.size
  match s.loadAll f.clauses.toList 1 with
  | (_, some o) => o
  | (s, none) => run 0x10000000000 s 64 0

end PathSafety.Search
