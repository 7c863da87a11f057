import RaxzusHeap.PmmSpec
import RaxzusHeap.HeapDomain

/-! # What mapping never undoes

`Stable P` says that `P` survives the elementary steps `map_page` and the frame searches are
made of: setting bits of the bitmap, writing memory, counting.  Such a property is kept by
them from any state whatsoever, also when they stop (`Stable.mapPage`,
`Stable.largeMapPage`).  A set bit stays set (`stable_allocated`), and the records of the
domains stay the same (`stable_domain`).

A `Lasting` property survives unmapping as well: the record of the large domain stays the same
(`lasting_large`), and a frame from 2 GB on stays clear (`lasting_clear`), since no address
leads to the upper half of the bitmap. -/

namespace RaxzusHeap

open Imperative Bits

/-- `P` survives the elementary steps of mapping a page. -/
structure Stable (P : State → Prop) : Prop where
  bits : ∀ s i w, i < 16384 → P s → P (s.setBitmap i (s.bitmap i ||| w))
  used : ∀ (s : State) n, P s → P { s with usedFrames := n }
  write : ∀ s f i v, P s → P (s.write f i v)
  install : ∀ s d va e, P s → P (s.install d va e)
  noteTable : ∀ s f, P s → P (s.noteTable f)

theorem stable_allocated (g : ℕ) : Stable fun s => s.allocated g = true where
  bits s i w _ h := by
    unfold State.allocated State.setBitmap at *
    by_cases hi : ((g / 32 : ℕ) : ℤ) = i
    · subst hi
      simp only [if_true]
      rw [BitVec.getLsbD_or, h, Bool.true_or]
    · simp only [if_neg hi]
      exact h
  used _ _ h := h
  write _ _ _ _ h := h
  install _ _ _ _ h := h
  noteTable _ _ h := h

theorem stable_domain (d : SizeClass) (r : HeapDomain) : Stable fun s => s.domains d = r where
  bits _ _ _ _ h := h
  used _ _ h := h
  write _ _ _ _ h := h
  install _ _ _ _ h := h
  noteTable _ _ h := h

namespace Stable

variable {P : State → Prop}

theorem setFrame (hP : Stable P) (addr : ℕ) : Keeps P (setFrame addr) := by
  unfold RaxzusHeap.setFrame
  by_cases h : 0xC0000000 ≤ addr
  · rw [if_pos h]
    exact Keeps.pure P _
  · rw [if_neg h]
    exact fun s hs => hP.bits s _ _ (index_lt (by omega)) hs

theorem incrementUsedFrames (hP : Stable P) : Keeps P incrementUsedFrames :=
  Keeps.modify fun s hs => hP.used s _ hs

theorem kernelBitLoop (hP : Stable P) (safeStart index : ℕ) :
    ∀ n b w, Keeps P (kernelBitLoop safeStart index n b w)
  | 0, _, _ => Keeps.pure P _
  | n + 1, b, w => by
      rw [RaxzusHeap.kernelBitLoop]
      refine Keeps.bind (Keeps.get P) fun s => ?_
      have ih := kernelBitLoop hP safeStart index n (b + 1) (w <<< 1)
      split_ifs
      · exact ih
      · exact (hP.setFrame _).bind fun _ => hP.incrementUsedFrames.bind fun _ => Keeps.pure P _
      · exact ih

theorem kernelWordLoop (hP : Stable P) (safeStart : ℕ) :
    ∀ n index, Keeps P (kernelWordLoop safeStart n index)
  | 0, _ => Keeps.pure P _
  | n + 1, index => by
      rw [RaxzusHeap.kernelWordLoop]
      refine Keeps.bind (Keeps.get P) fun s => ?_
      have ih := kernelWordLoop hP safeStart n (index + 1)
      split_ifs
      · exact ih
      · refine (hP.kernelBitLoop _ _ _ _ _).bind fun o => ?_
        cases o with
        | some a => exact Keeps.pure P _
        | none => exact ih

theorem processBitLoop (hP : Stable P) (index : ℕ) :
    ∀ n b w, Keeps P (processBitLoop index n b w)
  | 0, _, _ => Keeps.pure P _
  | n + 1, b, w => by
      rw [RaxzusHeap.processBitLoop]
      have ih := processBitLoop hP index n (b + 1) (w <<< 1)
      split_ifs
      · exact (Keeps.throw P _).bind fun _ => Keeps.bind (Keeps.get P) fun s => by
          split_ifs
          · exact (hP.setFrame _).bind fun _ => hP.incrementUsedFrames.bind fun _ => Keeps.pure P _
          · exact ih
      · refine Keeps.bind (Keeps.get P) fun s => ?_
        split_ifs
        · exact (hP.setFrame _).bind fun _ => hP.incrementUsedFrames.bind fun _ => Keeps.pure P _
        · exact ih

theorem processWordLoop (hP : Stable P) : ∀ n index, Keeps P (processWordLoop n index)
  | 0, _ => Keeps.pure P _
  | n + 1, index => by
      rw [RaxzusHeap.processWordLoop]
      refine Keeps.bind (Keeps.get P) fun s => ?_
      have ih := processWordLoop hP n (index + 1)
      split_ifs
      · exact ih
      · refine (hP.processBitLoop _ _ _ _).bind fun o => ?_
        cases o with
        | some a => exact Keeps.pure P _
        | none => exact ih

theorem load (_ : Stable P) (L : Layout) (va : ℕ) : Keeps P (L.load va) := by
  intro s hs
  unfold Layout.load
  cases s.peek L.dirFrame va <;> exact hs

theorem store (hP : Stable P) (L : Layout) (va v : ℕ) : Keeps P (L.store va v) := by
  intro s hs
  unfold Layout.store
  cases s.walk L.dirFrame va with
  | some e => exact hP.write s _ _ _ hs
  | none => exact hs

theorem mapPage (hP : Stable P) (L : Layout) (dir va phys fl : ℕ) :
    Keeps P (L.mapPage dir va phys fl) := by
  have hentry : ∀ t : ℕ, Keeps P (do
      L.store (u32 (t + 4 * ((va >>> 12) &&& 0x3FF))) (phys ||| fl)
      modify (·.install dir va (phys ||| fl)) : Kernel Unit) := fun t =>
    (hP.store L _ _).bind fun _ => Keeps.modify fun s hs => hP.install s _ _ _ hs
  unfold Layout.mapPage
  split_ifs
  · exact Keeps.pure P _
  · exact Keeps.pure P _
  · refine (hP.load L _).bind fun entry => ?_
    split_ifs
    · exact (Keeps.pure P _).bind hentry
    · exact (hP.store L _ _).bind fun _ => (Keeps.pure P _).bind hentry
    · refine Keeps.bind (hP.kernelWordLoop _ _ _) fun a => ?_
      refine Keeps.bind (Keeps.modify fun s hs => hP.noteTable s _ hs) fun _ => ?_
      exact (hP.store L _ _).bind fun _ => (Keeps.pure P _).bind hentry

theorem linkBlocks (hP : Stable P) (L : Layout) (virt blockSize blocksPerPage tail : ℕ) :
    Keeps P (L.linkBlocks virt blockSize blocksPerPage tail) :=
  (Keeps.times (fun _ => hP.store L _ _) _).bind fun _ => hP.store L _ _

theorem largeMapPage (hP : Stable P) (L : Layout) (virtStart i : ℕ) :
    Keeps P (L.largeMapPage virtStart i) := by
  unfold Layout.largeMapPage
  refine (hP.processWordLoop _ _).bind fun phys => ?_
  split_ifs
  · exact Keeps.pure P _
  · refine Keeps.bind (Keeps.get P) fun s => ?_
    exact (hP.mapPage L _ _ _ _).bind fun _ => (hP.mapPage L _ _ _ _).bind fun _ => Keeps.pure P _

theorem largeMapLoop (hP : Stable P) (L : Layout) (virtStart n : ℕ) (b : Bool) :
    Keeps P (iterate n b fun i mapped =>
      if mapped then L.largeMapPage virtStart i else pure false) := by
  refine Keeps.iterate (fun i mapped => ?_) n b
  split_ifs
  · exact hP.largeMapPage L virtStart i
  · exact Keeps.pure P _

end Stable

/-! ### Unmapping -/

/-- `P` survives the steps of unmapping a page as well. -/
structure Lasting (P : State → Prop) : Prop extends Stable P where
  clear : ∀ s i w, P s → P (s.setBitmap i (s.bitmap i &&& w))
  uninstall : ∀ s d va, P s → P (s.uninstall d va)

theorem lasting_large (r : LargeDomain) : Lasting fun s => s.large = r where
  bits _ _ _ _ h := h
  used _ _ h := h
  write _ _ _ _ h := h
  install _ _ _ _ h := h
  noteTable _ _ h := h
  clear _ _ _ h := h
  uninstall _ _ _ h := h

theorem lasting_clear {f : ℕ} (hf : 0x80000 ≤ f) : Lasting fun s => s.allocated f = false where
  bits s i w hi h := by
    unfold State.allocated State.setBitmap at *
    have hne : ¬ ((f / 32 : ℕ) : ℤ) = i := by omega
    simp only [if_neg hne]
    exact h
  used _ _ h := h
  write _ _ _ _ h := h
  install _ _ _ _ h := h
  noteTable _ _ h := h
  clear s i w h := by
    unfold State.allocated State.setBitmap at *
    by_cases hi : ((f / 32 : ℕ) : ℤ) = i
    · subst hi
      simp only [if_true]
      rw [BitVec.getLsbD_and, h, Bool.false_and]
    · simp only [if_neg hi]
      exact h
  uninstall _ _ _ h := h

namespace Lasting

variable {P : State → Prop}

theorem clearFrame (hP : Lasting P) (addr : ℕ) : Keeps P (clearFrame addr) := by
  unfold RaxzusHeap.clearFrame
  split_ifs
  · exact Keeps.pure P _
  · exact fun s hs => hP.clear s _ _ hs

theorem clearEntry (hP : Lasting P) (L : Layout) (dir virt : ℕ) (freeFrame : Bool) :
    Keeps P (L.clearEntry dir virt freeFrame) := by
  have hend : ∀ t : ℕ, Keeps P (do
      L.store t 0
      modify (·.uninstall dir virt) : Kernel Unit) := fun t =>
    (hP.store L _ _).bind fun _ => Keeps.modify fun s hs => hP.uninstall s _ _ hs
  unfold Layout.clearEntry
  refine (hP.load L _).bind fun entry => ?_
  split_ifs
  · exact (hP.load L _).bind fun e => (hP.clearFrame _).bind fun _ => hend _
  · exact hend _
  · exact Keeps.pure P _

theorem largeUnmapPage (hP : Lasting P) (L : Layout) (virt : ℕ) (freeFrame : Bool) :
    Keeps P (L.largeUnmapPage virt freeFrame) := by
  unfold Layout.largeUnmapPage
  refine (Keeps.get P).bind fun s => ?_
  exact (hP.clearEntry L _ _ _).bind fun _ => hP.clearEntry L _ _ _

end Lasting

end RaxzusHeap
