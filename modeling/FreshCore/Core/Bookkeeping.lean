import FreshCore.Core.Invariants
import FreshCore.Imperative.History
import FreshCore.Cache.AnalysisTurns

/-!
# What a session does to the records

All that a session does to the records is to look one up, change it after a scan or a cleanup
and put it back, and to save them. An assertion that each of these keeps is kept by the whole
session, whatever happens between them. One such assertion is that the records tell the
history of the session.
-/

namespace FreshCore

open Posix Imperative Config Device Cache

/-- Everything that leaves the records alone and reports neither a cleanup nor a save. -/
def aloofScope : Scope where
  event
    | .saved _ => False
    | .cleaned _ _ => False
    | _ => True
  change f := ∀ p, (f p).states = p.states

theorem removalScope_sub_aloofScope : removalScope.Sub aloofScope where
  event event hevent := by cases event <;> first | exact hevent | exact trivial
  change f hf p := by
    obtain ⟨time, start, files, bytes, hremoval⟩ := hf p
    rw [hremoval]

theorem sweepScope_sub_aloofScope : sweepScope.Sub aloofScope where
  event event hevent := by cases event <;> first | exact hevent | exact trivial
  change f hf := removalScope_sub_aloofScope.change f hf

theorem listScope_sub_aloofScope : listScope.Sub aloofScope :=
  listScope_sub_removalScope.trans removalScope_sub_aloofScope

theorem engineScope_sub_aloofScope : engineScope.Sub aloofScope where
  event event hevent := by cases event <;> first | exact hevent | exact trivial
  change f hf p := by
    obtain ⟨engine, time, hengine⟩ := hf p
    rw [hengine]

/-- The record of a package is looked up, changed and put back. -/
def World.modifyRecord (w : World) (pkgName : Bytes) (modify : PackageState → PackageState) :
    World :=
  { w with
    process.states := updatePackageState w.process.states pkgName
      (modify (getPackageState w.process.states pkgName)) }

/-- The entries from a mark on, and the one that is added. -/
theorem World.record_since {w : World} {mark : Nat} (hmark : mark ≤ w.log.length) (event : Event) :
    mark ≤ (w.record event).log.length ∧
      (w.record event).log.drop mark = w.log.drop mark ++ [event] := by
  dsimp only [World.record]
  rw [List.length_append]
  exact ⟨Nat.le_add_right_of_le hmark, List.drop_append_of_le_length hmark⟩

/-- Each step that concerns the records keeps the assertion, and so does the rest. -/
structure Bookkeeping (env : Env) (I : World → Prop) : Prop where
  aloof : ∀ w w', I w → aloofScope.Reaches w w' → I w'
  scan : ∀ w pkgName now size, I w → I (w.modifyRecord pkgName (recordScan now size))
  clean : ∀ w pkgName now, I w →
    I ((w.modifyRecord pkgName (recordCleanup now)).record (.cleaned pkgName now))
  save : ∀ w, I w → I ((saveStateAtomic env).run w).2

namespace Bookkeeping

variable {env : Env} {depth : Nat} {I : World → Prop} {store : PackageStore}

theorem within (h : Bookkeeping env I) {α : Type} {x : Daemon α}
    (hwithin : Within env aloofScope x) : Program.Triple I x (fun _ => I) I :=
  hwithin.triple h.aloof

/-- The records are the same as before, for which they were looked up. -/
theorem remembers (h : Bookkeeping env I) {α : Type} {x : Daemon α}
    (hwithin : Within env aloofScope x) :
    Program.Triple (fun w => I w ∧ w.process.states = store) x
      (fun _ w => I w ∧ w.process.states = store) I := by
  have hkept := hwithin.triple (I := fun w => I w ∧ w.process.states = store) ?_
  · exact hkept.mono (fun _ hw => hw) (fun _ _ hw => hw) fun _ hw => hw.1
  · intro w w' hw hreach
    have hsame : w'.process.states = w.process.states :=
      hreach.observe fun _ hchange p => hchange p
    exact ⟨h.aloof w w' hw.1 hreach, hsame.trans hw.2⟩

theorem lookUp :
    Program.Triple I getProcess (fun process w => I w ∧ w.process.states = process.states) I :=
  .inspect fun _ hw => ⟨hw, rfl⟩

theorem saveStateAtomic (h : Bookkeeping env I) :
    Program.Triple I (FreshCore.saveStateAtomic env) (fun _ => I) I :=
  .of_state h.save

theorem calculateCacheSize (h : Bookkeeping env I) (dir : CacheDirInfo) :
    Program.Triple (fun w => I w ∧ w.process.states = store)
      (FreshCore.calculateCacheSize env depth dir)
      (fun measured w => measured.pkgName = dir.pkgName ∧ I w ∧ w.process.states = store) I := by
  have hsize := getDirectorySize_within env listScope_sub_aloofScope depth dir.path
  unfold FreshCore.calculateCacheSize
  refine .ite (fun _ => .pure fun _ hw => ⟨rfl, hw⟩) fun _ => ?_
  exact .bind (h.remembers hsize) fun size => .pure fun _ hw => ⟨rfl, hw⟩

theorem analyzeDir (h : Bookkeeping env I) (now : UInt64) (dir : CacheDirInfo) :
    Program.Triple I (FreshCore.analyzeDir env depth now dir) (fun _ => I) I := by
  unfold FreshCore.analyzeDir
  refine .bind lookUp fun process => ?_
  refine .ite (fun _ => .pure fun _ hw => hw.1) fun _ => ?_
  refine .bind (h.calculateCacheSize dir) fun measured => .of_and fun hname => ?_
  refine .bind (M := fun _ => I) (.update fun w hw => ?_) fun _ => ?_
  · rw [← hname, ← hw.2]
    exact h.scan w measured.pkgName now measured.sizeBytes hw.1
  · exact .ite (fun _ => .pure fun _ hw => hw) fun _ => .pure fun _ hw => hw

theorem analyzeDirs (h : Bookkeeping env I) (now : UInt64) (dirs : List CacheDirInfo) :
    Program.Triple I (FreshCore.analyzeDirs env depth now dirs) (fun _ => I) I := by
  induction dirs with
  | nil => exact .pure fun _ hw => hw
  | cons dir rest ih =>
      exact .bind (h.analyzeDir now dir) fun _ => .bind ih fun _ => .pure fun _ hw => hw

theorem analyzeCaches (h : Bookkeeping env I) (scannedDirs : List CacheDirInfo) :
    Program.Triple I (FreshCore.analyzeCaches env depth scannedDirs) (fun _ => I) I := by
  unfold FreshCore.analyzeCaches
  refine .bind (h.within (.prim .getProcess)) fun process => ?_
  refine .bind (h.within (.prim (.note trivial))) fun _ => ?_
  refine .bind (h.within (.prim (.sense _))) fun now => ?_
  refine .bind (h.analyzeDirs now scannedDirs) fun _ => ?_
  refine .bind h.saveStateAtomic fun _ => ?_
  exact .bind (h.within (.prim (.sense _))) fun _ => .pure fun _ hw => hw

/-- The cleanup is recorded and then reported. -/
theorem cleanDirectorySafely (h : Bookkeeping env I) (targetDir : CacheDirInfo) :
    Program.Triple I (FreshCore.cleanDirectorySafely env depth targetDir) (fun _ => I) I := by
  unfold FreshCore.cleanDirectorySafely
  refine .bind (h.within (getDirectoryChildren_within env listScope_sub_aloofScope _))
    fun children => ?_
  cases children with
  | none => exact .pure fun _ hw => hw
  | some children =>
      refine .bind (h.within (.prim (.enter trivial))) fun _ => ?_
      refine .bind
        (h.within (cleanChildren_within env depth removalScope_sub_aloofScope _ children))
        fun completed => ?_
      refine .bind (h.within (.prim (.leave trivial))) fun _ => ?_
      refine .ite (fun _ => .pure fun _ hw => hw) fun _ => ?_
      refine .bind lookUp fun process => ?_
      refine .bind (h.remembers (.prim (.sense _))) fun now => ?_
      refine .bind (M := fun _ w => ∃ w₀, I w₀ ∧
        w = w₀.modifyRecord targetDir.pkgName (recordCleanup now)) (.update ?_) fun _ => ?_
      · rintro w ⟨hw, hstates⟩
        rw [← hstates]
        exact ⟨w, hw, rfl⟩
      refine .bind (M := fun _ => I) (.update ?_) fun _ => ?_
      · rintro _ ⟨w, hw, rfl⟩
        exact h.clean w targetDir.pkgName now hw
      exact .bind h.saveStateAtomic fun _ => .pure fun _ hw => hw

/-- A session keeps what the steps that concern the records keep. -/
theorem main (h : Bookkeeping env I)
    (hload : ∀ file w, I w → I { w with process.config := (loadConfig w.process.config file).2 })
    (expirations : Nat) :
    Program.Triple I (FreshCore.main env depth expirations) (fun _ => I) I := by
  have hengine : engineScope.Keeps env I :=
    .of_reaches fun w w' hw hreach => h.aloof w w' hw (hreach.mono engineScope_sub_aloofScope)
  have hsweeps := runSystemMaintenanceSweeps_within env depth sweepScope_sub_aloofScope
  refine main_kept hengine (performMaintenance_kept hengine (h.within hsweeps) ?_) hload expirations
  refine maintainCaches_kept hengine fun dirs => ?_
  exact .bind (h.analyzeCaches dirs) fun analysis =>
    cleanTargets_kept hengine h.cleanDirectorySafely analysis.2

end Bookkeeping

end FreshCore
