import Umbra.Reclaim.Machine
import Umbra.Publication.Moves

/-!
# Inversion of the reclaim machine's steps

Most steps of the compactor only turn its phase: `Turn` lists those with what they have read.
`Move` has the rest: the steps of the publication machine, the request, the advance of the
boundary, and the checkpointer's queue.
-/

namespace Umbra

namespace Reclaim

open Foundation

variable {n : Nat}

namespace Phase

def pass? : Phase → Option Pass
  | .idle => none
  | .readNextFree movesDone nLblknos => some ⟨movesDone, nLblknos, 0, 0, 0, [], []⟩
  | .readBoundary movesDone nLblknos nextFreePblk =>
    some ⟨movesDone, nLblknos, nextFreePblk, 0, 0, [], []⟩
  | .readMapPages movesDone nLblknos nextFreePblk boundary =>
    some ⟨movesDone, nLblknos, nextFreePblk, boundary, 0, [], []⟩
  | .scanning pass _ | .segments pass _ | .moving pass _ | .relocating pass _ _
  | .publishing pass _ _ | .sizing pass _ _ | .counting pass _ _ _ | .checking pass _ _ _ _ _
  | .enqueuing pass _ _ | .advancing pass => some pass

def isOpen : Phase → Bool
  | .counting _ _ _ _ | .checking _ _ _ _ _ _ | .enqueuing _ _ _ => false
  | _ => true

lemma isOpen_resume (pass resume) : (State.resume pass resume).isOpen = true := by
  cases resume <;> rfl

lemma pass?_resume (pass resume) : (State.resume pass resume).pass? = some pass := by
  cases resume <;> rfl

end Phase

structure Pass.Same (p p' : Pass) : Prop where
  nLblknos : p'.nLblknos = p.nLblknos
  boundary : p'.reclaimBoundaryPblk = p.reclaimBoundaryPblk
  seen : p'.seen = p.seen

lemma Pass.Same.refl (p : Pass) : p.Same p := ⟨rfl, rfl, rfl⟩

inductive Turn (cfg : Config n) (s : State n) : Phase → Prop
  | idle : Turn cfg s .idle
  | begin {movesDone} :
      Turn cfg s (.readNextFree movesDone (s.pub.mapMeta.entry.super.logical cfg.fork))
  | readBoundary {movesDone nLblknos nextFreePblk}
      (hphase : s.phase = .readBoundary movesDone nLblknos nextFreePblk) :
      Turn cfg s (.readMapPages movesDone nLblknos nextFreePblk (min
        (s.pub.mapMeta.entry.reclaimBoundary cfg.fork) nextFreePblk))
  | scan {pass : Pass} {pageIdx : Nat} (hphase : s.phase = .scanning pass pageIdx)
      (hin : pageIdx < pageCount pass.nLblknos) :
      Turn cfg s (.scanning
        { pass with seen := pass.seen ++ readPage s.pub.mapMeta cfg.fork pass.nLblknos pageIdx }
        (pageIdx + 1))
  | carry {pass pass' phase} (hpass : s.phase.pass? = some pass) (hpass' : phase.pass? = some pass')
      (hsame : pass.Same pass') (hopen : phase.isOpen = true) : Turn cfg s phase
  | noBlocks {pass resume segno} (hphase : s.phase = .sizing pass resume segno)
      (hzero : s.pub.mapMeta.entry.super.logical cfg.fork = 0) :
      Turn cfg s (.enqueuing pass resume segno)
  | sized {pass resume segno} (hphase : s.phase = .sizing pass resume segno) :
      Turn cfg s (.counting pass resume segno (s.pub.mapMeta.entry.super.logical cfg.fork))
  | noPages {pass resume segno nLblknos} (hphase : s.phase = .counting pass resume segno nLblknos)
      (hzero : s.mapNblocks = 0) : Turn cfg s (.enqueuing pass resume segno)
  | counted {pass resume segno nLblknos} (hphase : s.phase = .counting pass resume segno nLblknos) :
      Turn cfg s (.checking pass resume segno nLblknos s.mapNblocks 0)
  | checked {pass resume segno nLblknos nMapPages pageIdx}
      (hphase : s.phase = .checking pass resume segno nLblknos nMapPages pageIdx)
      (hend : Pass.walked cfg.fork nLblknos nMapPages pageIdx = true) :
      Turn cfg s (.enqueuing pass resume segno)
  | checkPage {pass resume segno nLblknos nMapPages pageIdx}
      (hphase : s.phase = .checking pass resume segno nLblknos nMapPages pageIdx)
      (hin : pageIdx < pageCount nLblknos)
      (hnone : ∀ pblkno ∈ readPage s.pub.mapMeta cfg.fork nLblknos pageIdx, pblkno / cfg.relsegSize
        ≠ segno) : Turn cfg s (.checking pass resume segno nLblknos nMapPages (pageIdx + 1))

inductive Move (cfg : Config n) (s : State n) : Event n → State n → Prop
  | pub {e : Umbra.Event n} {pub : Umbra.State n} (hadm : s.admits cfg e = true)
      (hm : Umbra.Move s.pub e pub) :
      Move cfg s (.pub e) { s with
          pub := pub
          mapNblocks := s.mapNblocksAfter e
          phase := s.phaseAfter e
          sync := s.syncAfter e }
  | turn {e phase} (h : Turn cfg s phase) : Move cfg s e { s with phase := phase }
  | enqueue {pass : Pass} {resume : Resume} {segno : Nat}
      (hphase : s.phase = .enqueuing pass resume segno)
      (hbelow : mapSegmentFullyBelowReclaimBoundary cfg
        (s.pub.mapMeta.entry.reclaimBoundary cfg.fork) segno = true) :
      Move cfg s .enqueue { s with
          phase := State.resume pass resume
          requests := s.requests ++ [segno]
          enqueued := segno :: s.enqueued }
  | advance {pass : Pass} (hphase : s.phase = .advancing pass) :
      Move cfg s .advance { s with
          phase := .idle
          pub := s.pub.setMeta { s.pub.mapMeta with
            entry := s.pub.mapMeta.entry.advanceReclaimBoundary cfg.fork
              (mapCompactorAdvanceBoundaryFromSet pass.reclaimBoundaryPblk pass.nextFreePblk
                pass.boundaryCommitted) } }
  | absorb : Move cfg s .absorb s.absorb
  | syncPre (hsync : s.sync = .idle) :
      Move cfg s .syncPre
        { s.absorb with checkpointCycleCtr := s.checkpointCycleCtr + 1, sync := .started }
  | syncEnd (hsync : s.sync = .post) : Move cfg s .syncPost { s with sync := .idle }
  | unlink {segno : Nat} {cycleCtr : UInt16} {rest : List (Nat × UInt16)} (hsync : s.sync = .post)
      (hpending : s.pendingUnlinks = (segno, cycleCtr) :: rest)
      (hcycle : cycleCtr ≠ s.checkpointCycleCtr) :
      Move cfg s .syncPost { s with
          pub := { s.pub with wal := s.pub.wal ++ [Record.other] }
          pendingUnlinks := rest
          unlinked := segno :: s.unlinked }
  | abandon : Move cfg s .abandon { s with pub := { s.pub with ckpt := .idle }, sync := .idle }

section Inversion

variable {cfg : Config n} {s t : State n} {e : Event n} {locked : Bool}

lemma Move.carry {pass phase} (hpass : s.phase.pass? = some pass) (hpass' : phase.pass? = some pass)
    (hopen : phase.isOpen = true) : Move cfg s e { s with phase := phase } :=
  .turn (.carry hpass hpass' (.refl pass) hopen)

lemma pageIdx_lt_of_not_walked {fork nLblknos nMapPages pageIdx}
    (h : ¬ Pass.walked fork nLblknos nMapPages pageIdx = true) : pageIdx < pageCount nLblknos := by
  simp only [Pass.walked, decide_eq_true_eq, not_or, not_le] at h
  exact h.1

lemma Move.of_read (h : (reclaim cfg).step s .read = some t) : Move cfg s .read t := by
  dsimp only [reclaim] at h
  split at h
  · rename_i movesDone nLblknos hphase
    split_ifs at h
    · cases h
      exact .turn .idle
    · have hpass : s.phase.pass? = some ⟨movesDone, nLblknos, 0, 0, 0, [], []⟩ := by
        rw [hphase]
        rfl
      cases h
      exact .turn (.carry hpass rfl ⟨rfl, rfl, rfl⟩ rfl)
  · rename_i hphase
    cases h
    exact .turn (.readBoundary hphase)
  · rename_i movesDone nLblknos nextFreePblk boundary hphase
    split_ifs at h
    · cases h
      exact .turn .idle
    · have hpass : s.phase.pass?
          = some ⟨movesDone, nLblknos, nextFreePblk, boundary, 0, [], []⟩ := by
        rw [hphase]
        rfl
      cases h
      exact .turn (.carry hpass rfl ⟨rfl, rfl, rfl⟩ rfl)
  · rename_i hphase
    split_ifs at h with hzero
    · cases h
      exact .turn (.noBlocks hphase hzero)
    · cases h
      exact .turn (.sized hphase)
  · rename_i hphase
    split_ifs at h with hzero
    · cases h
      exact .turn (.noPages hphase hzero)
    · cases h
      exact .turn (.counted hphase)
  · cases h

lemma Move.of_scanPage (h : (reclaim cfg).step s (.scanPage locked) = some t) :
    Move cfg s (.scanPage locked) t := by
  dsimp only [reclaim] at h
  split at h
  · rename_i pass pageIdx hphase
    have hpass : s.phase.pass? = some pass := by rw [hphase]; rfl
    split_ifs at h with hend hlock
    · cases h
      exact .carry hpass rfl rfl
    · cases h
      exact .turn (.scan hphase (pageIdx_lt_of_not_walked hend))
    · cases h
      exact .carry hpass rfl rfl
  · cases h

lemma Move.of_segment {found} (h : (reclaim cfg).step s (.segment found) = some t) :
    Move cfg s (.segment found) t := by
  dsimp only [reclaim] at h
  split at h
  · rename_i pass segno hphase
    have hpass : s.phase.pass? = some pass := by rw [hphase]; rfl
    split_ifs at h <;> cases h <;> exact .carry hpass rfl rfl
  · cases h

lemma Move.of_visit (h : (reclaim cfg).step s (.visit locked) = some t) :
    Move cfg s (.visit locked) t := by
  dsimp only [reclaim] at h
  split at h
  · rename_i pass lblkno hphase
    have hpass : s.phase.pass? = some pass := by rw [hphase]; rfl
    split_ifs at h
    · cases h
      exact .carry hpass rfl rfl
    · split at h
      · split_ifs at h <;> cases h <;> exact .carry hpass rfl rfl
      · cases h
        exact .carry hpass rfl rfl
  · cases h

lemma Move.of_giveUp (h : (reclaim cfg).step s .giveUp = some t) : Move cfg s .giveUp t := by
  dsimp only [reclaim] at h
  split at h
  · rename_i pass lblkno pblkno hphase
    have hpass : s.phase.pass? = some pass := by rw [hphase]; rfl
    obtain ⟨-, rfl⟩ := guard_eq_some h
    exact .carry hpass rfl rfl
  · cases h

lemma Move.of_moved (h : (reclaim cfg).step s .moved = some t) : Move cfg s .moved t := by
  dsimp only [reclaim] at h
  split at h
  · rename_i pass lblkno pblkno hphase
    have hpass : s.phase.pass? = some pass := by rw [hphase]; rfl
    obtain ⟨-, h⟩ := Option.ite_none_right_eq_some.mp h
    split_ifs at h <;> cases h <;> exact .turn (.carry hpass rfl ⟨rfl, rfl, rfl⟩ rfl)
  · cases h

lemma Move.of_checkPage (h : (reclaim cfg).step s .checkPage = some t) :
    Move cfg s .checkPage t := by
  dsimp only [reclaim] at h
  split at h
  · rename_i pass resume segno nLblknos nMapPages pageIdx hphase
    have hpass : s.phase.pass? = some pass := by rw [hphase]; rfl
    split_ifs at h with hend hany
    · cases h
      exact .turn (.checked hphase hend)
    · cases h
      exact .carry hpass (Phase.pass?_resume pass resume) (Phase.isOpen_resume pass resume)
    · cases h
      refine .turn (.checkPage hphase (pageIdx_lt_of_not_walked hend) ?_)
      simpa using hany
  · cases h

theorem Move.of_step (h : (reclaim cfg).step s e = some t) : Move cfg s e t := by
  cases e with
  | pub =>
    obtain ⟨hadm, h⟩ := Option.ite_none_right_eq_some.mp h
    obtain ⟨pub, hpub, rfl⟩ := Option.map_eq_some_iff.mp h
    exact .pub hadm (Umbra.Move.of_step hpub)
  | begin =>
    obtain ⟨-, rfl⟩ := guard_eq_some h
    exact .turn .begin
  | read => exact .of_read h
  | scanPage => exact .of_scanPage h
  | segment => exact .of_segment h
  | visit => exact .of_visit h
  | giveUp => exact .of_giveUp h
  | moved => exact .of_moved h
  | checkPage => exact .of_checkPage h
  | enqueue =>
    dsimp only [reclaim] at h
    split at h
    · rename_i pass resume segno hphase
      split_ifs at h with hbelow
      · cases h
        exact .enqueue hphase hbelow
      · cases h
        have hpass : s.phase.pass? = some pass := by rw [hphase]; rfl
        exact .carry hpass (Phase.pass?_resume pass resume) (Phase.isOpen_resume pass resume)
    · cases h
  | advance =>
    dsimp only [reclaim] at h
    split at h
    · rename_i hphase
      cases h
      exact .advance hphase
    · cases h
  | absorb => cases h; exact .absorb
  | syncPre =>
    obtain ⟨hsync, rfl⟩ := guard_eq_some h
    exact .syncPre hsync
  | syncPost =>
    obtain ⟨hsync, h⟩ := Option.ite_none_right_eq_some.mp h
    split at h
    · cases h
      exact .syncEnd hsync
    · rename_i segno cycleCtr rest hpending
      split_ifs at h with hcycle
      · cases h
        exact .syncEnd hsync
      · cases h
        exact .unlink hsync hpending hcycle
  | abandon =>
    obtain ⟨-, rfl⟩ := guard_eq_some h
    exact .abandon

end Inversion

end Reclaim

end Umbra
