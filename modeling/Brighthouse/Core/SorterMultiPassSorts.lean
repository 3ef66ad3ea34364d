import Brighthouse.Core.SorterMultiPassSpec

/-!
# An external sort returns the rows in order

`InitHeap` gives every block a part of the buffer.  The sizes of these parts are `int`s: with
many blocks there is nothing left for the last one, and a buffer of `2 ^ 31` bytes has a
negative size.  A block that gets no part of the buffer is never read.
-/

set_option autoImplicit false

namespace Brighthouse.Core

open Library List

namespace SorterMultiPass

variable {c : SorterSizes} {s s' : SorterMultiPass c}
  {runs : List (List c.Row)} {x : Int} {b bufBytes : Nat} {v : BlockView c}

/-! ## InitHeap -/

section
variable (c) (standard last : Int) (noBlocks : Nat)

def firstBytes (rows : Nat) (i : Nat) : Int :=
  min (toInt32 (rows * c.totalBytes)) (if i < noBlocks - 1 then standard else last)

/-- The part of the buffer for block `i` begins and ends inside the buffer, and with whole rows. -/
structure Fits (bufBytes rows i : Nat) : Prop where
  low : -2 ^ 31 ≤ i * standard
  high : i * standard < 2 ^ 31
  load : 0 < firstBytes c standard last noBlocks rows i → 0 ≤ i * standard ∧
    i * standard % c.totalBytes = 0 ∧
      firstBytes c standard last noBlocks rows i % c.totalBytes = 0 ∧
    i * standard + firstBytes c standard last noBlocks rows i ≤ bufBytes

end

/-- The view of block `i` after its first row was put into the heap. -/
def openView (standard last : Int) (runs : List (List c.Row)) (i : Nat) : Option (BlockView c) :=
  match runs[i]? with
  | none => none
  | some run =>
    let bytes := firstBytes c standard last runs.length run.length i
    if 0 < bytes then
      let count := (bytes / c.totalBytes).toNat
      some ⟨run, (i * standard / c.totalBytes).toNat, count, 0, count, 1⟩
    else none

structure Opening (s : SorterMultiPass c) (runs : List (List c.Row)) (standard last : Int)
    (i : Nat) :
    Prop where
  stored : Stored s runs
  live : ∀ b v, b < i → openView standard last runs b = some v → Live s b v
  dead : ∀ b, b < i → openView standard last runs b = none → Dead s b
  fresh : ∀ b, i ≤ b → b < runs.length →
    ∃ d, s.blocks[b]? = some d ∧ d.fileOffset = 0 ∧ d.readOffset = -1
  heap : ∀ kb, kb ∈ s.heap ↔
    kb.block < i ∧ ∃ v, openView standard last runs kb.block = some v ∧ kb.record = v.record
  nodup : (s.heap.map Keyblock.block).Nodup

variable {standard last : Int}

theorem exists_bytes (nonneg : 0 ≤ x) (whole : x % c.totalBytes = 0) :
    ∃ n : Nat, x = n * c.totalBytes := by
  obtain ⟨k, isMul⟩ := Int.dvd_of_emod_eq_zero whole
  have positive := cast_total_pos c
  have nonneg' : 0 ≤ k := by
    by_contra negative
    have less : (c.totalBytes : Int) * k < 0 := Int.mul_neg_of_pos_of_neg positive (by omega)
    omega
  exact ⟨k.toNat, by rw [isMul, Int.toNat_of_nonneg nonneg', mul_comm]⟩

theorem toInt32_of_lt (low : -2 ^ 31 ≤ x) (high : x < 2 ^ 31) : toInt32 x = x :=
  Int.bmod_eq_of_le (by omega) (by omega)

def openDescription (d : BlockDescription) (standard last : Int) (noBlocks i : Nat) :
    BlockDescription :=
  { d with blockStart := i * standard, bufSize := if i < noBlocks - 1 then standard else last }

variable {i : Nat} {run : List c.Row} {d : BlockDescription}

theorem getFromBlock_open {noBlocks : Nat}
    (there : s.blocks[i]? = some (openDescription d standard last noBlocks i))
    (size : d.blockSize = toInt32 (run.length * c.totalBytes)) (offset : d.fileOffset = 0)
    (reload : d.readOffset = -1) : s.getFromBlock i =
      let bytes := firstBytes c standard last noBlocks run.length i
      if bytes ≤ 0 then
        some (none, false, s.setBlock i
          { openDescription d standard last noBlocks i with readOffset := -2 })
      else (s.ciGet i (i * standard) bytes 0).map fun s =>
        let (kb, s) := s.nextOfBuffer i { d with
          fileOffset := bytes, blockStart := i * standard, readOffset := 0, bufSize := bytes }
        (some kb, false, s) := by
  have isBytes : min (d.blockSize - 0) (if i < noBlocks - 1 then standard else last) =
      firstBytes c standard last noBlocks run.length i := by
    rw [size, sub_zero]
    rfl
  rw [getFromBlock, there, openDescription]
  dsimp only
  rw [reload, offset, if_neg (by decide), if_pos rfl, isBytes, zero_add]
  refine if_congr Iff.rfl rfl ?_
  rw [decide_eq_false (lt_irrefl (0 : Int)), if_neg Bool.false_ne_true]
  cases s.ciGet i (i * standard) (firstBytes c standard last noBlocks run.length i) 0 <;> rfl

theorem Opening.load (opening : Opening s runs standard last i) (isRun : runs[i]? = some run)
    (short : run.length * c.totalBytes ≤ 2 ^ 31) {s₁ : SorterMultiPass c}
    (framed : Framed s s₁ i 0 0)
    (there : s₁.blocks[i]? = some (openDescription d standard last runs.length i))
    (size : d.blockSize = toInt32 (run.length * c.totalBytes)) (offset : d.fileOffset = 0)
    (reload : d.readOffset = -1)
    (positive : 0 < firstBytes c standard last runs.length run.length i)
    (fits : Fits c standard last runs.length s.bufBytes run.length i) :
    ∃ v s', openView standard last runs i = some v ∧
      s₁.getFromBlock i = some (some ⟨i, v.record⟩, false, s') ∧ Live s' i v ∧
      Framed s₁ s' i v.start (v.start + v.cap) ∧ s'.bufBytes = s.bufBytes := by
  obtain ⟨nonneg, wholeStart, wholeBytes, room⟩ := fits.load positive
  obtain ⟨start, isStart⟩ := exists_bytes nonneg wholeStart
  obtain ⟨count, isCount⟩ := exists_bytes positive.le wholeBytes
  have countPos : 0 < count := by
    rcases eq_zero_or_pos count with zero | some'
    · rw [isCount, zero] at positive
      simp at positive
    · exact some'
  have sizePos : 0 < toInt32 (run.length * c.totalBytes) := positive.trans_le (min_le_left _ _)
  have sizeEq : toInt32 (run.length * c.totalBytes) = (run.length : Int) * c.totalBytes := by
    by_cases exact' : (run.length : Int) * c.totalBytes = 2 ^ 31
    · rw [exact'] at sizePos
      exact absurd sizePos (by decide)
    · exact toInt32_of_lt (by have := @bytes_nonneg c run.length; omega) (by omega)
  have countLe : count ≤ run.length := by
    have le : firstBytes c standard last runs.length run.length i ≤
        (run.length : Int) * c.totalBytes := (min_le_left _ _).trans sizeEq.le
    rw [isCount] at le
    exact bytes_le.mp le
  have bytesDiv : (firstBytes c standard last runs.length run.length i / c.totalBytes).toNat =
      count := by
    rw [isCount, bytes_ediv]
    rfl
  have startDiv : ((i : Int) * standard / c.totalBytes).toNat = start := by
    rw [isStart, bytes_ediv]
    rfl
  -- the view before the load has an empty buffer
  obtain ⟨v₀, isV₀⟩ : ∃ v₀ : BlockView c, v₀ = ⟨run, start, count, 0, 0, 0⟩ := ⟨_, rfl⟩
  have isView : openView standard last runs i = some (v₀.reload count) := by
    rw [openView, isRun]
    dsimp only
    rw [if_pos positive, bytesDiv, startDiv, isV₀, BlockView.reload]
    rw [zero_add]
  have file : s₁.files i = some run := by
    rw [framed.files]
    exact opening.stored.files i run isRun sizePos
  have roomRows : ((start + count : Nat) : Int) * c.totalBytes ≤ s₁.bufBytes := by
    rw [framed.bufBytes, Nat.cast_add, add_mul, ← isStart, ← isCount]
    exact room
  have load := @ciGet_loads c s₁ i start count 0 run file roomRows (by omega)
  refine ⟨v₀.reload count, ({ s₁ with
    buf := overwrite s₁.buf start count run } : SorterMultiPass c).setBlock i
      (v₀.reload count).description, isView, ?_, ?_, ?_, framed.bufBytes⟩
  · have load' : s₁.ciGet i ((start : Int) * c.totalBytes) ((count : Int) * c.totalBytes) 0 =
        some { s₁ with buf := overwrite s₁.buf start count run } := by
      rw [show (0 : Int) = ((0 : Nat) : Int) * c.totalBytes by simp]
      exact load
    rw [getFromBlock_open there size offset reload]
    rw [if_neg (not_le.mpr positive), isCount, isStart, load']
    have step := nextOfBuffer_first ({ s₁ with
      buf := overwrite s₁.buf start count run } : SorterMultiPass c) i v₀ countPos
    have described : d.blockSize = v₀.rows.length * c.totalBytes := by
      rw [size, sizeEq, isV₀]
    have loaded : (count : Int) * c.totalBytes = ((v₀.hi + count : Nat) : Int) * c.totalBytes := by
      rw [isV₀, zero_add]
    rw [← described, ← loaded] at step
    rw [isV₀] at step ⊢
    exact congrArg (fun result => some (some result.1, false, result.2)) step
  · have live := @load_live c s₁ i count v₀ (by rw [isV₀]; exact file) _ there countPos
      (by rw [isV₀]) (by rw [isV₀]; dsimp only; omega) (by rw [isV₀]; exact roomRows)
    rw [isV₀] at live ⊢
    exact live
  · have sizeSame : (v₀.reload count).description.blockSize =
        (openDescription d standard last runs.length i).blockSize := by
      rw [isV₀]
      exact sizeEq.symm.trans size.symm
    have set' := @setBlock_framed c ({ s₁ with
      buf := overwrite s₁.buf start count run } : SorterMultiPass c) i
      (openDescription d standard last runs.length i) (v₀.reload count).description there sizeSame
      start (start + count)
    rw [isV₀] at set' ⊢
    exact { set' with buf := fun k outside => overwrite_outside s₁.buf _ outside }

theorem openView_place (isRun : runs[b]? = some run)
    (isView : openView standard last runs b = some v)
    (fits : Fits c standard last runs.length bufBytes run.length b) :
    (v.start : Int) * c.totalBytes = b * standard ∧
      (b < runs.length - 1 → (v.cap : Int) * c.totalBytes ≤ standard) := by
  rw [openView, isRun] at isView
  dsimp only at isView
  split at isView
  · rename_i positive
    cases isView
    obtain ⟨nonneg, wholeStart, wholeBytes, -⟩ := fits.load positive
    obtain ⟨start, isStart⟩ := exists_bytes nonneg wholeStart
    obtain ⟨count, isCount⟩ := exists_bytes positive.le wholeBytes
    rw [isStart, bytes_ediv, isCount, bytes_ediv]
    refine ⟨rfl, fun notLast => ?_⟩
    have le : firstBytes c standard last runs.length run.length b ≤ standard := by
      rw [firstBytes, if_pos notLast]
      exact min_le_right _ _
    rw [isCount] at le
    exact le
  · cases isView

theorem openView_apart {b' : Nat} {v' : BlockView c} (less : b < b') (inside : b' < runs.length)
    (allFit : ∀ b r, b ≤ b' → runs[b]? = some r →
      Fits c standard last runs.length bufBytes r.length b)
    (isView : openView standard last runs b = some v)
    (isView' : openView standard last runs b' = some v') : v.start + v.cap ≤ v'.start := by
  have isRun := getElem?_eq_getElem (less.trans inside)
  have isRun' := getElem?_eq_getElem inside
  obtain ⟨placed, sized⟩ := openView_place isRun isView (allFit b _ less.le isRun)
  obtain ⟨placed', -⟩ := openView_place isRun' isView' (allFit b' _ (le_refl b') isRun')
  have sized' := sized (by omega)
  have positive : 0 ≤ standard := (bytes_nonneg v.cap).trans sized'
  have steps : ((b : Int) + 1) * standard ≤ b' * standard :=
    Int.mul_le_mul_of_nonneg_right (by omega) positive
  rw [add_mul] at steps
  have rows : ((v.start + v.cap : Nat) : Int) * c.totalBytes ≤ (v'.start : Int) * c.totalBytes := by
    rw [Nat.cast_add, add_mul]
    omega
  exact bytes_le.mp rows

theorem Opening.step (opening : Opening s runs standard last i) (isRun : runs[i]? = some run)
    (short : run.length * c.totalBytes ≤ 2 ^ 31)
    (allFit : ∀ b r, b ≤ i → runs[b]? = some r →
      Fits c standard last runs.length s.bufBytes r.length b) (left : Nat) :
    ∃ s', initBlocks standard last (left + 1) i s = initBlocks standard last left (i + 1) s' ∧
      Opening s' runs standard last (i + 1) ∧ s'.bufBytes = s.bufBytes ∧
      s'.alreadySorted = s.alreadySorted := by
  have inside : i < runs.length := (List.getElem?_eq_some_iff.mp isRun).1
  have fits := allFit i run (le_refl i) isRun
  obtain ⟨d, there, offset, reload⟩ := opening.fresh i (le_refl i) inside
  obtain ⟨d', there', size⟩ := opening.stored.sizes i run isRun
  rw [there] at there'
  cases there'
  obtain ⟨s₁, isS₁⟩ : ∃ s₁, s.setBlock i (openDescription d standard last runs.length i) = s₁ :=
    ⟨_, rfl⟩
  have framed : Framed s s₁ i 0 0 := by
    rw [← isS₁]
    exact setBlock_framed there (by rfl) 0 0
  have there₁ : s₁.blocks[i]? = some (openDescription d standard last runs.length i) := by
    rw [← isS₁]
    exact setBlock_get there
  have start : ∀ {kb reloaded s'}, s₁.getFromBlock i = some (kb, reloaded, s') →
      initBlocks standard last (left + 1) i s =
        initBlocks standard last left (i + 1) (s'.pushHeap kb) := by
    intro kb reloaded s' found
    rw [← isS₁, openDescription] at found
    rw [initBlocks, checkedInt, if_pos ⟨fits.low, fits.high⟩, there]
    dsimp only
    rw [opening.stored.noBlocks, found]
  -- what the blocks before have in common in both cases
  have keep : ∀ {s' start stop next},
      Framed s₁ s' i start stop →
      (∀ b v, b < i → openView standard last runs b = some v → v.start + v.cap ≤ start ∨
        stop ≤ v.start) →
      (next = (openView standard last runs i).map fun v => ⟨i, v.record⟩) →
      (∀ v, openView standard last runs i = some v → Live s' i v) →
      (openView standard last runs i = none → Dead s' i) →
      Opening (s'.pushHeap next) runs standard last (i + 1) := by
    intro s' start stop next framed' away isNext live dead
    have push := pushHeap_same s' next
    have heap : s'.heap = s.heap := framed'.heap.trans framed.heap
    refine ⟨((opening.stored.frame framed).frame framed').same push, ?_, ?_, ?_, ?_, ?_⟩
    · intro b v small isView
      by_cases here : b = i
      · rw [here] at isView ⊢
        exact (live v isView).same push
      · exact ((((opening.live b v (by omega) isView).frame framed here
          (.inr (Nat.zero_le _))).frame
          framed' here (away b v (by omega) isView))).same push
    · intro b small isView
      by_cases here : b = i
      · rw [here] at isView ⊢
        exact (dead isView).same push
      · exact (((opening.dead b (by omega) isView).frame framed here).frame framed' here).same push
    · intro b large inside'
      obtain ⟨d', there', facts⟩ := opening.fresh b (by omega) inside'
      refine ⟨d', ?_, facts⟩
      rw [push.blocks, framed'.others b (by omega), framed.others b (by omega)]
      exact there'
    · intro kb
      rw [isNext, mem_pushHeap, heap, opening.heap kb, Nat.lt_succ_iff_lt_or_eq]
      by_cases here : kb.block = i
      · simp only [here, lt_irrefl, false_and, or_false, or_true]
      · simp only [here, false_and, false_or, or_false]
    · rw [pushHeap_heap, heap, isNext]
      cases openView standard last runs i with
      | none => exact opening.nodup
      | some v =>
        refine nodup_cons.mpr ⟨fun mem => ?_, opening.nodup⟩
        obtain ⟨kb, isIn, isBlock⟩ := mem_map.mp mem
        have less := ((opening.heap kb).mp isIn).1
        dsimp only at isBlock
        omega
  by_cases positive : 0 < firstBytes c standard last runs.length run.length i
  · obtain ⟨v, s', isView, result, live, framed', bytes⟩ :=
      opening.load isRun short framed there₁ size
      offset reload positive fits
    refine ⟨_, start result, keep framed' (fun b u less isView' => ?_) (by rw [isView]; rfl)
      (fun u isView' => ?_) (fun isNone => ?_), ?_, ?_⟩
    · exact .inl (openView_apart less inside allFit isView' isView)
    · rw [isView] at isView'
      cases isView'
      exact live
    · rw [isView] at isNone
      cases isNone
    · exact (pushHeap_same s' _).bufBytes.trans bytes
    · exact framed'.sorted.trans framed.sorted
  · have isNone : openView standard last runs i = none := by
      rw [openView, isRun]
      exact if_neg positive
    have result := getFromBlock_open there₁ size offset reload
    rw [if_pos (not_lt.mp positive)] at result
    have framed' : Framed s₁ (s₁.setBlock i { openDescription d standard last runs.length i with
        readOffset := -2 }) i 0 0 := setBlock_framed there₁ (by rfl) 0 0
    refine ⟨_, start result, keep framed' (fun b u less isView' => .inr (Nat.zero_le _))
      (by rw [isNone]; rfl) (fun u isView' => ?_) (fun _ => ⟨_, setBlock_get there₁, rfl⟩), ?_, ?_⟩
    · rw [isNone] at isView'
      cases isView'
    · exact framed.bufBytes
    · exact framed.sorted

theorem Opening.unfit (opening : Opening s runs standard last i) (isRun : runs[i]? = some run)
    (unfit : ¬Fits c standard last runs.length s.bufBytes run.length i) (left : Nat) :
    initBlocks standard last (left + 1) i s = none := by
  have inside : i < runs.length := (List.getElem?_eq_some_iff.mp isRun).1
  obtain ⟨d, there, offset, reload⟩ := opening.fresh i (le_refl i) inside
  obtain ⟨d', there', size⟩ := opening.stored.sizes i run isRun
  rw [there] at there'
  cases there'
  rw [initBlocks, checkedInt]
  by_cases range : -2 ^ 31 ≤ (i : Int) * standard ∧ (i : Int) * standard < 2 ^ 31
  · rw [if_pos range, there]
    dsimp only
    rw [opening.stored.noBlocks]
    have positive : 0 < firstBytes c standard last runs.length run.length i := by
      by_contra nothing
      exact unfit ⟨range.1, range.2, fun some' => absurd some' nothing⟩
    have outside : (s.setBlock i (openDescription d standard last runs.length i)).ciGet i
        (i * standard) (firstBytes c standard last runs.length run.length i) 0 = none :=
      if_neg fun load => unfit ⟨range.1, range.2, fun _ => load⟩
    have result : (s.setBlock i (openDescription d standard last runs.length i)).getFromBlock i =
        none := by
      rw [getFromBlock_open (setBlock_get there) size offset reload]
      rw [if_neg (not_le.mpr positive), outside]
      rfl
    rw [openDescription] at result
    rw [result]
  · rw [if_neg range]

section
variable (short : ∀ run ∈ runs, run.length * c.totalBytes ≤ 2 ^ 31)
include short

/-- All blocks are opened, or one does not fit and nothing is returned. -/
theorem Opening.initBlocks (left : Nat) :
    ∀ {s i}, Opening s runs standard last i → i + left = runs.length →
      (∀ b r, b < i → runs[b]? = some r →
        Fits c standard last runs.length s.bufBytes r.length b) →
      match SorterMultiPass.initBlocks standard last left i s with
      | none => ∃ b r, runs[b]? = some r ∧ ¬Fits c standard last runs.length s.bufBytes r.length b
      | some s' => Opening s' runs standard last runs.length ∧ s'.alreadySorted = s.alreadySorted ∧
        s'.bufBytes = s.bufBytes ∧
        ∀ b r, runs[b]? = some r → Fits c standard last runs.length s.bufBytes r.length b := by
  induction left with
  | zero =>
    intro s i opening all fit
    subst all
    exact ⟨opening, rfl, rfl, fun b r isRun => fit b r (List.getElem?_eq_some_iff.mp isRun).1 isRun⟩
  | succ left ih =>
    intro s i opening all fitBefore
    have isRun := getElem?_eq_getElem (show i < runs.length by omega)
    by_cases fits : Fits c standard last runs.length s.bufBytes (runs[i]).length i
    · have fitHere : ∀ b r, b ≤ i → runs[b]? = some r →
          Fits c standard last runs.length s.bufBytes r.length b := by
        intro b r le isRun'
        by_cases here : b = i
        · subst here
          rw [isRun] at isRun'
          cases isRun'
          exact fits
        · exact fitBefore b r (by omega) isRun'
      obtain ⟨s₁, step, opening₁, bytes, sorted⟩ := opening.step isRun
        (short _ (getElem_mem _)) fitHere left
      have rest := ih opening₁ (by omega)
        (by rw [bytes]; exact fun b r less => fitHere b r (by omega))
      rw [bytes, sorted] at rest
      rw [step]
      exact rest
    · rw [opening.unfit isRun fits left]
      exact ⟨i, _, isRun, fits⟩

end

theorem Opening.reading (opening : Opening s runs standard last runs.length)
    (allFit : ∀ b r, runs[b]? = some r → Fits c standard last runs.length bufBytes r.length b) :
    Reading s runs (openView standard last runs) where
  stored := opening.stored
  live := opening.live
  dead := opening.dead
  heap := opening.heap
  nodup := opening.nodup
  apart := by
    intro b b' v v' inside inside' differ isView isView'
    rcases lt_or_gt_of_ne differ with less | greater
    · exact .inl (openView_apart less inside' (fun b r _ => allFit b r) isView isView')
    · exact .inr (openView_apart greater inside (fun b r _ => allFit b r) isView' isView)

theorem left_openView (isRun : runs[i]? = some run) :
    left (openView standard last runs) i =
      if 0 < firstBytes c standard last runs.length run.length i then run else [] := by
  rw [left, openView, isRun]
  dsimp only
  split <;> rename_i isView
  · split at isView
    · cases isView
    · rename_i nothing
      rw [if_neg nothing]
  · split at isView
    · rename_i positive
      cases isView
      rw [if_pos positive]
      rfl
    · cases isView

end SorterMultiPass

end Brighthouse.Core
