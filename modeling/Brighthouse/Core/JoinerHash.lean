import Brighthouse.Core.Filter
import Brighthouse.Core.JoinerHashTable

/-!
# Hash join

Functional model of `JoinerHash` (`core/JoinerHash.cpp`).  A row of a side is a tuple of row
numbers with its join key as the encoders write it; a null in one of the key columns makes
the key `none`.  The matched side comes in packrows with what the statistics say about
them.  `MINewContents` is the list of the tuples committed; the tips `distinct_only` and
`forget_now`, which let it drop tuples, are not set.  The counters for the execution log are
left out.
-/

set_option autoImplicit false

namespace Brighthouse.Core

open Library

structure JoinTips where
  countOnly : Bool
  limit : Option Nat

structure JoinerRow (α : Type) where
  tuple : α
  key : Option Bytes

/-! ## Packrows -/

/-- What the statistics say about a key column of a packrow.  `ImpossibleValues` compares
its bounds with those of the rows put into the table since it was cleared. -/
inductive ColumnRough (τ : Type) where
  /-- a string encoder: both bounds are there and `ImpossibleValues` -/
  | string (impossible : List (JoinerRow τ) → Bool)
  | number (localMin localMax : Option Int) (impossible : List (JoinerRow τ) → Bool)
      (nullsPossible : Bool)

def ColumnRough.omits {τ : Type} (put : List (JoinerRow τ)) : ColumnRough τ → Bool
  | string impossible => impossible put
  | number localMin localMax impossible _ => localMin.isNone || localMax.isNone || impossible put

def ColumnRough.constant {τ : Type} : ColumnRough τ → Bool
  | string _ => false
  | number localMin localMax _ nullsPossible => localMin == localMax && !nullsPossible

/-- A packrow with truthful statistics. -/
structure JoinPackrow (τ μ : Type) where
  rows : List (JoinerRow μ)
  columns : List (ColumnRough τ)
  /-- what `PutMatchedValue` leaves in the buffer for the minima of the columns -/
  constantKey : Bytes
  rows_ne : rows ≠ []
  columns_ne : columns ≠ []
  omits_sound : ∀ column ∈ columns, ∀ put, column.omits put = true →
    ∀ row ∈ rows, ∀ other ∈ put, ∀ key, row.key = some key → other.key ≠ some key
  constant_sound : (∀ column ∈ columns, column.constant = true) →
    ∀ row ∈ rows, row.key = some constantKey

/-- The loop over the key columns: `omit_this_packrow` and `packrow_uniform`. -/
def roughColumns {τ : Type} (otherCondExist : Bool) (put : List (JoinerRow τ)) :
    List (ColumnRough τ) → Bool → Bool × Bool
  | [], uniform => (false, uniform)
  | column :: rest, uniform =>
    if column.omits put then (true, uniform)
    else roughColumns otherCondExist put rest
      (if otherCondExist || !column.constant then false else uniform)

/-! ## The state of a join -/

/-- The side whose rows without a partner are kept; `InitOuter` never sets both flags. -/
inductive WatchedSide where
  | neither
  | traversed
  | matched
  deriving DecidableEq

structure JoinerHash (τ μ : Type) where
  traversed : List (JoinerRow τ)
  matched : List (JoinPackrow τ μ)
  otherCond : List (τ → μ → Bool)
  tips : JoinTips
  watch : WatchedSide
  outerNullsOnly : Bool
  forceSwitchingSides : Bool

structure JoinState (τ μ : Type) where
  jhash : JoinerHashTable
  put : List (JoinerRow τ)
  tuples : Nat → Option τ
  outerFilter : Filter
  newMind : List (Option τ × Option μ)

namespace JoinState

variable {τ μ : Type}

def commitTuple (s : JoinState τ μ) (tuple : Option τ × Option μ) : JoinState τ μ :=
  { s with newMind := tuple :: s.newMind }

def putTuple (s : JoinState τ μ) (hashRow : Nat) (tuple : τ) : JoinState τ μ :=
  { s with tuples := Function.update s.tuples hashRow (some tuple) }

def onFilter (s : JoinState τ μ) (change : Filter → Filter) : JoinState τ μ :=
  { s with outerFilter := change s.outerFilter }

end JoinState

/-- `while((hash_row = GetNextRow()) != NULL_VALUE_64)`: the rows in order. -/
def hashRows : Nat → JoinerHashTable → Option (List Nat)
  | 0, _ => none
  | turns + 1, h =>
    match h.getNextRow with
    | none => none
    | some (none, _) => some []
    | some (some row, h) => (hashRows turns h).map (row :: ·)

/-- `InitCurrentRowToGet` and the rows that `GetNextRow` then returns.  The cursor and the
buffer are written anew before they are used again. -/
def JoinerHashTable.lookup (h : JoinerHashTable) (key : Bytes) : Option (Nat × List Nat) :=
  match (h.putKey key).initCurrentRowToGet with
  | none => none
  | some (multiplier, found) => (hashRows (multiplier + 1) found).map (multiplier, ·)

namespace JoinerHash

variable {τ μ : Type} (j : JoinerHash τ μ)

def watchTraversed : Bool := decide (j.watch = .traversed)

def watchMatched : Bool := decide (j.watch = .matched)

def otherCondExist : Bool := !j.otherCond.isEmpty

def withoutTuples : Bool := j.tips.countOnly && !j.otherCondExist

def limitReached (joinedTuples : Nat) : Bool :=
  match j.tips.limit with
  | none => false
  | some limit => limit ≤ joinedTuples

/-! ## TraverseDim -/

structure Traversal (τ μ : Type) where
  rest : List (JoinerRow τ)
  state : JoinState τ μ
  outerTuples : Nat
  tooManyConflicts : Bool

variable (s : JoinState τ μ)

/-- `PutKeyValue` updates the statistics of the encoders. -/
def putRow (row : JoinerRow τ) : JoinState τ μ :=
  { s with put := row :: s.put }

def acceptRow (tuple : τ) (hashRow : Nat) (h : JoinerHashTable) : JoinState τ μ :=
  let s := { s with jhash := h }
  let s := if j.watchTraversed then s.onFilter (Filter.set · hashRow) else s
  if j.withoutTuples then s else s.putTuple hashRow tuple

def traverseRows : List (JoinerRow τ) → JoinState τ μ → Nat → Option (Traversal τ μ)
  | [], s, outerTuples => some ⟨[], s, outerTuples, false⟩
  | row :: rest, s, outerTuples =>
    let s := putRow s row
    match row.key with
    | none =>
      if j.watchTraversed then
        traverseRows rest (s.commitTuple (some row.tuple, none)) (outerTuples + 1)
      else traverseRows rest s outerTuples
    | some key =>
      match (s.jhash.putKey key).findAndAddCurrentRow with
      | none => none
      -- no space left: the next pass starts from this row
      | some (none, h) => some ⟨row :: rest, { s with jhash := h }, outerTuples, false⟩
      | some (some hashRow, h) =>
        if !j.forceSwitchingSides && h.tooManyConflicts then
          some ⟨row :: rest, { s with jhash := h }, outerTuples, true⟩
        else traverseRows rest (j.acceptRow s row.tuple hashRow h) outerTuples

def startPass : JoinState τ μ :=
  let s := { s with jhash := s.jhash.clearAll, put := [], tuples := fun _ => none }
  if j.watchTraversed then s.onFilter Filter.resetAll else s

def traverseDim (rows : List (JoinerRow τ)) (s : JoinState τ μ) (outerTuples : Nat) :
    Option (Traversal τ μ) :=
  j.traverseRows rows (j.startPass s) outerTuples

/-! ## MatchDim -/

def submitJoinedTuple (m : μ) (s : JoinState τ μ) (hashRow : Nat) : JoinState τ μ :=
  let s := if j.watchTraversed then s.onFilter (Filter.reset · hashRow) else s
  if j.outerNullsOnly then s else s.commitTuple (s.tuples hashRow, some m)

def resetMatched (matchingRow : Nat) : JoinState τ μ :=
  if j.watchMatched then s.onFilter (Filter.resetDelayed · matchingRow) else s

def resetTraversed (hashRow : Nat) : JoinState τ μ :=
  if j.watchTraversed then s.onFilter (Filter.reset · hashRow) else s

/-- The loop over a uniform packrow for one row of the table. -/
def submitPackrow (hashRow : Nat) : List (JoinerRow μ) → Nat → JoinState τ μ → JoinState τ μ
  | [], _, s => s
  | row :: rest, matchingRow, s =>
    submitPackrow hashRow rest (matchingRow + 1)
      (j.resetMatched (j.submitJoinedTuple row.tuple s hashRow) matchingRow)

/-- A packrow with one key. -/
def matchUniform (p : JoinPackrow τ μ) (matchingRow : Nat) (s : JoinState τ μ) :
    Option (Nat × JoinState τ μ) :=
  match s.jhash.lookup p.constantKey with
  | none => none
  | some (multiplier, rows) =>
    some (multiplier * p.rows.length,
      if j.tips.countOnly then rows.foldl j.resetTraversed s
      else rows.foldl (fun s hashRow => j.submitPackrow hashRow p.rows matchingRow s) s)

def checkOther (tuple : Option τ) (m : μ) : Bool :=
  match tuple with
  | none => false
  | some t => j.otherCond.all fun cond => cond t m

/-- One turn of the loop over the rows found, with other conditions. -/
def submitChecked (m : μ) (matchingRow : Nat) (joined : Nat × JoinState τ μ) (hashRow : Nat) :
    Nat × JoinState τ μ :=
  let (joinedTuples, s) := joined
  if j.checkOther (s.tuples hashRow) m then
    let s := if j.tips.countOnly then j.resetTraversed s hashRow
      else j.submitJoinedTuple m s hashRow
    (joinedTuples + 1, j.resetMatched s matchingRow)
  else (joinedTuples, s)

def matchRow (m : μ) (key : Bytes) (matchingRow : Nat) (s : JoinState τ μ) :
    Option (Nat × JoinState τ μ) :=
  match s.jhash.lookup key with
  | none => none
  | some (multiplier, rows) =>
    if j.otherCondExist then some (rows.foldl (j.submitChecked m matchingRow) (0, s))
    else
      let s := if j.tips.countOnly then rows.foldl j.resetTraversed s
        else rows.foldl (j.submitJoinedTuple m) s
      some (multiplier, if 0 < multiplier then j.resetMatched s matchingRow else s)

/-- What the loop over matched rows leaves; `stopped` if the limit was reached. -/
structure Matching (τ μ : Type) where
  joinedTuples : Nat
  state : JoinState τ μ
  stopped : Bool

def matchRows : List (JoinerRow μ) → Nat → Nat → JoinState τ μ → Option (Matching τ μ)
  | [], _, joinedTuples, s => some ⟨joinedTuples, s, false⟩
  | row :: rest, matchingRow, joinedTuples, s =>
    match row.key with
    | none => matchRows rest (matchingRow + 1) joinedTuples s
    | some key =>
      match j.matchRow row.tuple key matchingRow s with
      | none => none
      | some (found, s) =>
        if j.limitReached (joinedTuples + found) then some ⟨joinedTuples + found, s, true⟩
        else matchRows rest (matchingRow + 1) (joinedTuples + found) s

def matchPackrows : List (JoinPackrow τ μ) → Nat → Nat → JoinState τ μ →
    Option (Nat × JoinState τ μ)
  | [], _, joinedTuples, s => some (joinedTuples, s)
  | p :: rest, matchingRow, joinedTuples, s =>
    let (omitThis, uniform) := roughColumns j.otherCondExist s.put p.columns true
    if omitThis then matchPackrows rest (matchingRow + p.rows.length) joinedTuples s
    else if uniform then
      match j.matchUniform p matchingRow s with
      | none => none
      | some (found, s) =>
        matchPackrows rest (matchingRow + p.rows.length) (joinedTuples + found) s
    else
      match j.matchRows p.rows matchingRow joinedTuples s with
      | none => none
      | some result =>
        if result.stopped then some (result.joinedTuples, result.state)
        else matchPackrows rest (matchingRow + p.rows.length) result.joinedTuples result.state

def matchDim : Option (Nat × JoinState τ μ) :=
  match j.matchPackrows j.matched 0 0 s with
  | none => none
  | some (joinedTuples, s) =>
    -- with null rows only, the outer tuples are added later
    some (if j.outerNullsOnly then 0 else joinedTuples,
      if j.watchMatched then s.onFilter Filter.commit else s)

/-! ## Outer rows -/

def submitOuterTraversed : Nat × JoinState τ μ :=
  if j.tips.countOnly then (s.outerFilter.noOnes, s)
  else
    let rows := (List.range s.jhash.noRows).filter s.outerFilter.get
    (rows.length, rows.foldl (fun s hashRow => s.commitTuple (s.tuples hashRow, none)) s)

def matchedRows : List (JoinerRow μ) := j.matched.flatMap JoinPackrow.rows

/-- The loop over the matched rows that found no partner. -/
def submitUnmatched : List (JoinerRow μ) → Nat → JoinState τ μ → Nat × JoinState τ μ
  | [], _, s => (0, s)
  | row :: rest, matchedRow, s =>
    if s.outerFilter.get matchedRow then
      let (added, s) := submitUnmatched rest (matchedRow + 1)
        (s.commitTuple (none, some row.tuple))
      (added + 1, s)
    else submitUnmatched rest (matchedRow + 1) s

def submitOuterMatched : Nat × JoinState τ μ :=
  if j.tips.countOnly then (s.outerFilter.noOnes, s)
  else submitUnmatched j.matchedRows 0 s

/-! ## ExecuteJoin -/

inductive JoinResult (τ μ : Type) where
  | wrongSides
  | committed (joinedTuples : Nat) (newMind : List (Option τ × Option μ))

/-- The loop of passes: the numbers of joined and of outer tuples, and the state; the inner
`none` if there were too many conflicts. -/
def passes : Nat → List (JoinerRow τ) → Nat → Nat → JoinState τ μ →
    Option (Option (Nat × Nat × JoinState τ μ))
  | _, [], joinedTuples, outerTuples, s => some (some (joinedTuples, outerTuples, s))
  | 0, _ :: _, _, _, _ => none
  | turns + 1, row :: rows, joinedTuples, outerTuples, s =>
    match j.traverseDim (row :: rows) s outerTuples with
    | none => none
    | some traversal =>
      if traversal.tooManyConflicts then some none
      else
        match j.matchDim traversal.state with
        | none => none
        | some (found, s) =>
          let joinedTuples := joinedTuples + found
          let (added, s) := if j.watchTraversed then j.submitOuterTraversed s else (0, s)
          let outerTuples := traversal.outerTuples + added
          if j.limitReached joinedTuples then some (some (joinedTuples, outerTuples, s))
          else passes turns traversal.rest joinedTuples outerTuples s

def initOuter (h : JoinerHashTable) : Except String Filter :=
  if j.watchMatched then Filter.ofRows j.matchedRows.length true
  else if j.watchTraversed then Filter.ofRows h.noRows false
  else .ok (Filter.construct 0 0 false)

def executeJoin (h : JoinerHashTable) : Option (Except String (JoinResult τ μ)) :=
  match j.initOuter h with
  | .error message => some (.error message)
  | .ok outerFilter =>
    let s : JoinState τ μ := ⟨h, [], fun _ => none, outerFilter, []⟩
    let joined :=
      if 0 < j.traversed.length && 0 < j.matchedRows.length then
        j.passes j.traversed.length j.traversed 0 0 s
      else some (some (0, 0, s))
    match joined with
    | none => none
    | some none => some (.ok .wrongSides)
    | some (some (joinedTuples, outerTuples, s)) =>
      let (added, s) :=
        if j.watchMatched && !s.outerFilter.isEmpty then j.submitOuterMatched s else (0, s)
      some (.ok (.committed (joinedTuples + (outerTuples + added)) s.newMind))

end JoinerHash

end Brighthouse.Core
