import FreshCore.Cache.CleanerComplete

/-!
# What a cleaning gets done before it is told to stop

A batch that is told to stop ends the cleaning of a cache directory, but it was a full one:
whenever the device stays idle and no call fails, a cleaning that does not come to its end has
taken at least as many entries as a batch has files, and at least one.
-/

namespace FreshCore

open Posix Imperative Config Device Cache

/-- A check that finds the device in use, and a call that fails. -/
def Event.hinders : Event → Bool
  | idle state => state = .notIdle
  | listFailed _ => true
  | lstatFailed _ => true
  | removeFailed _ => true
  | _ => false

/-- Nothing of the kind happened. -/
def Unhindered (events : List Event) : Prop := ¬ Occurs Event.hinders events

instance (events : List Event) : Decidable (Unhindered events) := by
  unfold Unhindered
  infer_instance

/-- The entries that have gone are at least so many, and at least one. -/
structure Fewer (count : Int) (fs fs' : FileSystem) : Prop where
  lost : fs'.locs.length < fs.locs.length
  enough : fs'.locs.length + count ≤ fs.locs.length

/-! ## Counting entries -/

section Counting

variable {fs fs' fs'' : FileSystem} {count count' : Int}

namespace Fewer

theorem mono (h : Fewer count fs fs') (hle : count' ≤ count) : Fewer count' fs fs' := by
  obtain ⟨hlost, henough⟩ := h
  exact ⟨hlost, by omega⟩

/-- One entry is enough for what is missing. -/
theorem of_lost (hlost : fs'.locs.length < fs.locs.length) (hle : count ≤ 1) :
    Fewer count fs fs' :=
  ⟨hlost, by omega⟩

/-- Of the entries that are missing one has gone before. -/
theorem after (hlost : fs'.locs.length < fs.locs.length) (h : Fewer count' fs' fs'')
    (hle : count ≤ count' + 1) : Fewer count fs fs'' := by
  obtain ⟨hlost', henough⟩ := h
  exact ⟨by omega, by omega⟩

theorem of_longer (hle : fs'.locs.length ≤ fs.locs.length) (h : Fewer count fs' fs'') :
    Fewer count fs fs'' := by
  obtain ⟨hlost, henough⟩ := h
  exact ⟨by omega, by omega⟩

end Fewer

end Counting

/-! ## Following the tree while nothing hinders -/

section Steps

variable (mark : Nat) (config : Configuration)

/-- Unless the run was hindered, the configuration is this one and the tree is as described. -/
def Ongoing (tree : FileSystem → Prop) : World → Prop :=
  Unless Event.hinders mark fun w => w.process.config = config ∧ tree w.fs

/-- From a tree as described, a run that nothing hinders returns, with a result and a tree as
described, whatever the batches are told. -/
def Advances {α : Type} (tree : FileSystem → Prop) (x : Daemon α)
    (result : α → FileSystem → Prop) : Prop :=
  Program.Triple (Ongoing mark config tree) x (fun a => Ongoing mark config (result a))
    (Ongoing mark config fun _ => False)

end Steps

/-- Everything but the end of a batch, and no change of the configuration. -/
def unbatchedScope : Scope where
  event event := ∀ files bytes proceed, event ≠ .endBatch files bytes proceed
  change f := ∀ p, (f p).config = p.config

theorem idleScope_sub_unbatchedScope : idleScope.Sub unbatchedScope where
  event event hevent := by
    rintro files bytes proceed rfl
    exact hevent
  change f hf p := by
    obtain ⟨time, htime⟩ := hf p
    rw [htime]

theorem listScope_sub_unbatchedScope : listScope.Sub unbatchedScope where
  event event hevent := by
    rintro files bytes proceed rfl
    exact hevent
  change _ hchange := hchange.elim

variable {env : Env} {mark : Nat} {config : Configuration} {tree tree' : FileSystem → Prop}

namespace Ongoing

variable {w : World}

theorem mono (h : Ongoing mark config tree w) (htree : tree w.fs → tree' w.fs) :
    Ongoing mark config tree' w :=
  Unless.mono h fun hw => ⟨hw.1, htree hw.2⟩

end Ongoing

namespace Advances

variable {α β : Type} {x : Daemon α} {result result' : α → FileSystem → Prop}

theorem pure {a : α} (h : ∀ fs, tree fs → result a fs) :
    Advances mark config tree (Pure.pure a) result :=
  Program.Triple.pure fun _ hw => hw.mono (h _)

theorem bind {f : α → Daemon β} {final : β → FileSystem → Prop}
    (hx : Advances mark config tree x result)
    (hf : ∀ a, Advances mark config (result a) (f a) final) :
    Advances mark config tree (x >>= f) final :=
  Program.Triple.bind hx hf

theorem ite {c : Prop} [Decidable c] {y : Daemon α}
    (hx : c → Advances mark config tree x result) (hy : ¬ c → Advances mark config tree y result) :
    Advances mark config tree (if c then x else y) result :=
  Program.Triple.ite hx hy

theorem strengthen (hx : Advances mark config tree x result) (htree : ∀ fs, tree' fs → tree fs) :
    Advances mark config tree' x result :=
  Program.Triple.strengthen hx fun _ hw => hw.mono (htree _)

theorem weaken (hx : Advances mark config tree x result)
    (hresult : ∀ a fs, result a fs → result' a fs) : Advances mark config tree x result' :=
  Program.Triple.weaken hx fun a _ hw => hw.mono (hresult a _)

/-- Where no batch ends, what is known of undisturbed runs is all that is needed. -/
theorem of_yields (hwithin : Within env unbatchedScope x)
    (hx : ∀ mark, Yields mark tree x result) : Advances mark config tree x result := by
  intro w hw
  have hreach := hwithin.reaches w
  obtain ⟨new, hlog, hnew⟩ := hreach.log
  have hconfig := hreach.observe (γ := Configuration) fun _ hchange => hchange
  -- an event that disturbs and is not the end of a batch hinders
  have hsame : ∀ event ∈ new, event.disturbs = true → event.hinders = true := by
    intro event hevent hdisturbs
    rcases hnew event hevent with hevent | hambient
    · cases event <;> simp_all [Event.disturbs, Event.interrupts, Event.hinders, unbatchedScope]
    · cases event <;> simp_all [Event.isAmbient, Event.disturbs, Event.interrupts, Event.hinders]
  have hnext {state : FileSystem → Prop} {w' : World} (hlog' : w'.log = w.log ++ new)
      (hpost : Calm w.log.length state w') : Occurs Event.hinders new ∨ state w'.fs := by
    refine hpost.2.imp_left fun hoccurs => ?_
    rw [hlog', List.drop_left] at hoccurs
    obtain ⟨event, hmem, hdisturbs⟩ := hoccurs
    exact ⟨event, hmem, hsame event hmem hdisturbs⟩
  have hpost (htree : tree w.fs) := hx w.log.length w (Unless.start _ htree)
  rcases hrun : x.run w with ⟨_ | a, w'⟩ <;> rw [hrun] at hlog hconfig hpost
  · rw [Program.post_none] at hpost ⊢
    refine Unless.extend hw hlog fun _ hstate => ?_
    exact (hnext hlog (hpost hstate.2)).imp_right False.elim
  · rw [Program.post_some] at hpost ⊢
    refine Unless.extend hw hlog fun _ hstate => ?_
    exact (hnext hlog (hpost hstate.2)).imp_right fun h => ⟨hconfig.trans hstate.1, h⟩

/-- What is shown of the runs from each tree, with what is known of the trees before and after
them anyhow. -/
theorem frame {scope : Scope} {result : FileSystem → α → FileSystem → Prop}
    {framed : FileSystem → FileSystem → Prop} (hwithin : Within env scope x)
    (hx : ∀ fs, tree fs → ∀ mark, Advances mark config (fun other => other = fs) x (result fs))
    (hframe : ∀ w, tree w.fs → framed w.fs (x.run w).2.fs) :
    Advances mark config tree x fun a fs' => ∃ fs, tree fs ∧ result fs a fs' ∧ framed fs fs' := by
  have hruns (w : World) (hw : w.process.config = config ∧ tree w.fs) : Program.Post
      (fun a => Ongoing w.log.length config fun fs' => result w.fs a fs' ∧ framed w.fs fs')
      (Ongoing w.log.length config fun _ => False) (x.run w) := by
    have hpost := hx w.fs hw.2 w.log.length w (Unless.start _ ⟨hw.1, rfl⟩)
    have hthen := hframe w hw.2
    rcases hrun : x.run w with ⟨_ | a, w'⟩ <;> rw [hrun] at hpost hthen
    · exact hpost
    · rw [Program.post_some] at hpost ⊢
      exact hpost.mono fun hresult => ⟨hresult, hthen⟩
  refine (Unless.triple hwithin hruns).mono (fun _ h => h) (fun a w' hw' => Unless.mono hw' ?_)
    fun w' hw' => Unless.mono hw' ?_
  · rintro ⟨w, hw, hconfig, hend⟩
    exact ⟨hconfig, w.fs, hw.2, hend⟩
  · rintro ⟨_, _, hnever⟩
    exact hnever

/-- A run that returns if nothing hinders it, as part of one of which that is not asked. -/
theorem triple {final : FileSystem → Prop} (hx : Advances mark config tree x result) :
    Program.Triple (Ongoing mark config tree) x (fun a => Ongoing mark config (result a))
      (Ongoing mark config final) :=
  Program.Triple.mono hx (fun _ h => h) (fun _ _ h => h) fun _ h => h.mono False.elim

end Advances

/-! ## Single calls -/

section Calls

theorem evaluateIdleState_advances :
    Advances mark config tree (evaluateIdleState env) fun idle fs => tree fs ∧ idle ≠ .notIdle :=
  .of_yields (evaluateIdleState_within env idleScope_sub_unbatchedScope)
    fun _ => evaluateIdleState_yields

theorem enter_advances (path : Bytes) : Advances mark config tree (enter path) fun _ => tree :=
  Program.Triple.update fun _ hw => Unless.extend hw rfl fun _ h => Or.inr h

theorem leave_advances (path : Bytes) (completed : Bool) :
    Advances mark config tree (leave path completed) fun _ => tree :=
  Program.Triple.update fun _ hw => Unless.extend hw rfl fun _ h => Or.inr h

theorem startBatch_advances : Advances mark config tree (startBatch env) fun _ => tree := by
  have hwithin : Within env unbatchedScope (startBatch env) :=
    .bind (.prim (.sense _)) fun _ => .prim (.setProcess fun _ => rfl)
  exact .of_yields hwithin fun _ => startBatch_yields

theorem getProcess_advances :
    Advances mark config tree getProcess fun process fs => tree fs ∧ process.config = config :=
  Program.Triple.inspect fun _ hw => Unless.mono hw fun h => ⟨h.1, h.2, h.1⟩

theorem sense_advances {α : Type} (read : Nat → α) :
    Advances mark config tree (sense read) fun _ => tree := by
  intro w hw
  exact (Unless.silent hw rfl id : Ongoing mark config tree w.next)

theorem setProcess_advances {change : Process → Process}
    (hchange : ∀ process, (change process).config = process.config) :
    Advances mark config tree (setProcess change) fun _ => tree :=
  Program.Triple.update fun w hw =>
    Unless.silent hw rfl fun h => ⟨(hchange w.process).trans h.1, h.2⟩

theorem note_advances (event : Event) : Advances mark config tree (note event) fun _ => tree :=
  Program.Triple.update fun _ hw => Unless.extend hw rfl fun _ h => Or.inr h

theorem save_advances : Advances mark config tree (saveStateAtomic env) fun _ => tree :=
  .of_yields (.prim (.save (by simp [unbatchedScope]))) fun _ => save_yields

/-- Nothing is known of the answer. -/
theorem endBatch_advances (filesProcessed : Int) (bytesFreed : UInt64) :
    Advances mark config tree (endBatch env filesProcessed bytesFreed) fun _ => tree := by
  intro w hw
  obtain ⟨tick, slow, proceed, hrun, _⟩ := endBatch_run env filesProcessed bytesFreed w
  rw [hrun, Program.post_some]
  exact Unless.extend hw rfl fun _ h => Or.inr h

end Calls

/-! ## Removing a directory -/

/-- Everything has gone, or so many entries have. -/
structure Worked (count : Int) (gone : Loc → Prop) (completed : Bool) (fs fs' : FileSystem) :
    Prop where
  all : completed = true → Pruned gone fs fs'
  part : completed = false → Fewer count fs fs'

/-- The remover takes everything at and below a directory, or stops after a full batch. -/
def Works (env : Env) (mark : Nat) (config : Configuration) (remover : Daemon Bool) (path : Bytes)
    (loc : Loc) (depth : Nat) : Prop :=
  ∀ tree : FileSystem → Prop,
    (∀ fs, tree fs → DirAt env.cwd path loc fs ∧ fs.Shallow loc depth) →
    Advances mark config tree remover fun completed fs' => ∃ fs, tree fs ∧
      Worked config.maxFilesPerBatch.toInt (fun place => loc <+: place) completed fs fs'

section Removal

variable {path : Bytes} {loc : Loc} {depth : Nat} {recurse : Bytes → Daemon Bool}

theorem lstat_advances (hquiet : env.Quiet) (path : Bytes) :
    Advances mark config tree (lstat env path)
      fun node fs => tree fs ∧ node = fs.lstat env.cwd path :=
  .of_yields (.prim (.lstat path)) fun _ => lstat_yields hquiet path

theorem safeRemove_advances (hquiet : env.Quiet) (hroot : loc ≠ [])
    (htree : ∀ fs, tree fs → fs.resolve env.cwd false path = some loc ∧
      (fs.node loc).isSome ∧ fs.children loc = []) :
    Advances mark config tree (safeRemove env path) fun removed fs' =>
      removed = true ∧ ∃ fs, tree fs ∧ Pruned (fun other => other = loc) fs fs' :=
  .of_yields (safeRemove_within env (by simp [unbatchedScope]) path)
    fun _ => safeRemove_yields hquiet hroot htree

theorem getDirectoryChildren_advances (hquiet : env.Quiet)
    (htree : ∀ fs, tree fs → DirAt env.cwd path loc fs) :
    Advances mark config tree (getDirectoryChildren env path)
      fun children fs => tree fs ∧ children = some (fs.children loc) :=
  .of_yields (getDirectoryChildren_within env listScope_sub_unbatchedScope path)
    fun _ => getDirectoryChildren_dirAt hquiet htree

/-- What the counts say after one child: none if the loop is left, and at most one file more if
everything at and below the child has gone. -/
structure Stepped (limit filesRemoved : Int) (gone : Loc → Prop) (counts : Option (Int × UInt64))
    (fs fs' : FileSystem) : Prop where
  left : counts = none → Fewer limit fs fs'
  gone : ∀ files bytes, counts = some (files, bytes) →
    files ≤ filesRemoved + 1 ∧ Pruned gone fs fs'

theorem Stepped.of_some {limit filesRemoved files : Int} {gone : Loc → Prop} {bytes : UInt64}
    {fs fs' : FileSystem} (hle : files ≤ filesRemoved + 1) (hpruned : Pruned gone fs fs') :
    Stepped limit filesRemoved gone (some (files, bytes)) fs fs' where
  left h := by cases h
  gone other bytes' h := by
    cases h
    exact ⟨hle, hpruned⟩

theorem removeChild_advances (hquiet : env.Quiet) {name : Name} {rest : List Name}
    (hrecurse : Works env mark config (recurse (child path name)) (child path name)
      (loc ++ [name]) depth)
    (htree : ∀ fs, tree fs → HasEntries env.cwd path loc depth (name :: rest) fs)
    (filesRemoved : Int) (bytesFreed : UInt64) :
    Advances mark config tree
      (removeChild env recurse (child path name) filesRemoved bytesFreed) fun counts fs' =>
        ∃ fs, tree fs ∧ Stepped config.maxFilesPerBatch.toInt filesRemoved
          (fun place => loc ++ [name] <+: place) counts fs fs' := by
  have hlstat (fs : FileSystem) (hfs : tree fs) :
      fs.lstat env.cwd (child path name) = fs.node (loc ++ [name]) :=
    (htree fs hfs).dirAt.lstat_entry (htree fs hfs).head
  refine .bind (lstat_advances hquiet _) fun node => ?_
  cases node with
  | none =>
      refine .pure fun fs hfs => ?_
      have hsome := (htree fs hfs.1).head
      rw [← hlstat fs hfs.1, ← hfs.2] at hsome
      cases hsome
  | some node =>
      have hnode (fs : FileSystem)
          (hfs : tree fs ∧ some node = fs.lstat env.cwd (child path name)) :
          fs.node (loc ++ [name]) = some node := by rw [← hlstat fs hfs.1, hfs.2]
      refine .ite (fun hdir => ?_) fun hdir => ?_
      · rw [Node.isDir_iff] at hdir
        refine .bind (hrecurse _ fun fs hfs => ⟨?_, (htree fs hfs.1).shallow.entry name⟩)
          fun completed => ?_
        · exact (htree fs hfs.1).dirAt.entry (by rw [hnode fs hfs, hdir])
        · refine .ite (fun hdone => .pure ?_) fun hnot => .pure ?_
          · rintro fs' ⟨fs, ⟨hfs, _⟩, hworked⟩
            exact ⟨fs, hfs, .of_some (by omega) (hworked.all hdone)⟩
          · rintro fs' ⟨fs, ⟨hfs, _⟩, hworked⟩
            have hpart := hworked.part (by simpa using hnot)
            exact ⟨fs, hfs, ⟨fun _ => hpart, fun _ _ h => by cases h⟩⟩
      · have hnotDir : node ≠ .dir := fun h => hdir (Node.isDir_iff.mpr h)
        have hroot : loc ++ [name] ≠ [] := by simp
        refine .bind (safeRemove_advances hquiet hroot fun fs hfs => ?_) fun removed => ?_
        · refine ⟨(htree fs hfs.1).dirAt.resolve_entry (htree fs hfs.1).head,
            (htree fs hfs.1).head, FileSystem.children_eq_nil_of_not_dir ?_⟩
          rw [hnode fs hfs]
          simpa using hnotDir
        · refine .ite (fun _ => .pure ?_) fun hnot => .pure ?_
          · rintro fs' ⟨_, fs, hfs, hpruned⟩
            have hleaf : fs.node (loc ++ [name]) ≠ some .dir := by
              rw [hnode fs hfs]
              simpa using hnotDir
            exact ⟨fs, hfs.1, .of_some le_rfl (hpruned.leaf hleaf)⟩
          · rintro fs' ⟨hremoved, _⟩
            exact absurd hremoved hnot

/-- Told to stop after the first child: with it the batch is full. -/
theorem Stepped.full {limit filesRemoved files : Int} {bytes : UInt64} {name : Name}
    {rest : List Name} {fs fs' : FileSystem}
    (h : Stepped limit filesRemoved (fun place => loc ++ [name] <+: place) (some (files, bytes))
      fs fs') (hentries : HasEntries env.cwd path loc depth (name :: rest) fs)
    (hfull : limit ≤ files) : Fewer (limit - max 0 filesRemoved) fs fs' := by
  obtain ⟨hle, hpruned⟩ := h.gone files bytes rfl
  exact .of_lost (hpruned.length_lt List.prefix_rfl hentries.head) (by omega)

/-- The loop goes on after the first child with no more files counted than have gone. -/
theorem Stepped.cons {limit filesRemoved files next : Int} {bytes : UInt64} {name : Name}
    {rest : List Name} {completed : Bool} {fs fs' fs'' : FileSystem}
    (h : Stepped limit filesRemoved (fun place => loc ++ [name] <+: place) (some (files, bytes))
      fs fs') (hentries : HasEntries env.cwd path loc depth (name :: rest) fs)
    (hnext : next ≤ max 0 files)
    (hrest : Worked (limit - max 0 next) (fun place => ∃ other ∈ rest, loc ++ [other] <+: place)
      completed fs' fs'') :
    Worked (limit - max 0 filesRemoved)
      (fun place => ∃ other ∈ name :: rest, loc ++ [other] <+: place) completed fs fs'' := by
  obtain ⟨hle, hpruned⟩ := h.gone files bytes rfl
  constructor
  · intro hcompleted
    apply (hpruned.trans (hrest.all hcompleted)).congr
    intro place _
    simp
  · intro hstopped
    exact .after (hpruned.length_lt List.prefix_rfl hentries.head) (hrest.part hstopped) (by omega)

/-- By induction on the names: the files counted are among the entries that have gone. -/
theorem removeChildren_advances (hquiet : env.Quiet) {names : List Name}
    (hrecurse : ∀ name, Works env mark config (recurse (child path name)) (child path name)
      (loc ++ [name]) depth)
    (htree : ∀ fs, tree fs → HasEntries env.cwd path loc depth names fs)
    (filesRemoved : Int) (bytesFreed : UInt64) :
    Advances mark config tree (removeChildren env recurse path names filesRemoved bytesFreed)
      fun counts fs' => ∃ fs, tree fs ∧
        Worked (config.maxFilesPerBatch.toInt - max 0 filesRemoved)
          (fun place => ∃ name ∈ names, loc ++ [name] <+: place) counts.isSome fs fs' := by
  induction names generalizing tree filesRemoved bytesFreed with
  | nil => exact .pure fun fs hfs => ⟨fs, hfs, fun _ => .refl (by simp), by simp⟩
  | cons name rest ih =>
      have hloop {files : Int} (next : Int) {bytes : UInt64} (bytes' : UInt64)
          (hnext : next ≤ max 0 files) :
          Advances mark config
            (fun fs' => ∃ fs, tree fs ∧ Stepped config.maxFilesPerBatch.toInt filesRemoved
              (fun place => loc ++ [name] <+: place) (some (files, bytes)) fs fs')
            (removeChildren env recurse path rest next bytes')
            fun counts fs' => ∃ fs, tree fs ∧
              Worked (config.maxFilesPerBatch.toInt - max 0 filesRemoved)
                (fun place => ∃ other ∈ name :: rest, loc ++ [other] <+: place)
                counts.isSome fs fs' := by
        refine (ih (fun fs' hfs' => ?_) next bytes').weaken fun counts fs'' hend => ?_
        · obtain ⟨fs, hfs, hstepped⟩ := hfs'
          exact (htree fs hfs).pruned (hstepped.gone files bytes rfl).2
        · obtain ⟨fs', ⟨fs, hfs, hstepped⟩, hrest⟩ := hend
          exact ⟨fs, hfs, hstepped.cons (htree fs hfs) hnext hrest⟩
      unfold removeChildren
      refine .bind evaluateIdleState_advances fun idle => .ite (fun hidle => ?_) fun _ => ?_
      · exact .pure fun fs hfs => absurd hidle hfs.2
      have hchild := removeChild_advances hquiet (hrecurse name) htree filesRemoved bytesFreed
      refine .bind (hchild.strengthen fun fs hfs => hfs.1) fun counts => ?_
      cases counts with
      | none =>
          refine .pure fun fs' hfs' => ?_
          obtain ⟨fs, hfs, hstepped⟩ := hfs'
          exact ⟨fs, hfs, by simp, fun _ => (hstepped.left rfl).mono (by omega)⟩
      | some counts =>
          obtain ⟨files, bytes⟩ := counts
          refine .bind getProcess_advances fun process => .ite (fun hfull => ?_) fun _ => ?_
          · refine .bind (endBatch_advances _ _) fun proceed => .ite (fun _ => ?_) fun _ => ?_
            · refine .pure fun fs' hfs' => ?_
              obtain ⟨⟨fs, hfs, hstepped⟩, hconfig⟩ := hfs'
              have hfewer := hstepped.full (htree fs hfs) (hconfig ▸ hfull)
              exact ⟨fs, hfs, by simp, fun _ => hfewer⟩
            · refine .bind startBatch_advances fun _ => ?_
              exact (hloop 0 0 (le_max_left 0 files)).strengthen fun fs hfs => hfs.1
          · exact (hloop files bytes (le_max_right 0 files)).strengthen fun fs hfs => hfs.1

/-- By induction on the depth: told to stop anywhere below, the remover has taken a full batch;
else the directory is empty in the end and goes itself. -/
theorem removeRecursiveBatched_works (hquiet : env.Quiet) (hroot : loc ≠ []) :
    Works env mark config (removeRecursiveBatched env depth path) path loc depth := by
  induction depth generalizing path loc with
  | zero =>
      intro tree htree
      refine Program.Triple.cut fun w hw => hw.mono fun hfs => ?_
      obtain ⟨hdirAt, hshallow⟩ := htree w.fs hfs
      exact absurd (hshallow [] (by rw [List.append_nil, hdirAt.dir])) (by simp)
  | succ depth ih =>
      intro tree htree
      unfold removeRecursiveBatched
      refine .bind (getDirectoryChildren_advances hquiet fun fs hfs => (htree fs hfs).1)
        fun children => ?_
      cases children with
      | none => exact .pure fun fs hfs => by cases hfs.2
      | some children =>
          have hentries (fs : FileSystem) (hfs : tree fs ∧ some children = some (fs.children loc)) :
              HasEntries env.cwd path loc depth children fs := by
            rw [Option.some.inj hfs.2]
            exact (htree fs hfs.1).1.hasEntries (htree fs hfs.1).2
          refine .bind (enter_advances path) fun _ => .bind startBatch_advances fun _ => ?_
          refine .bind (removeChildren_advances hquiet (fun name => ih (by simp)) hentries 0 0)
            fun counts => ?_
          cases counts with
          | none =>
              refine .bind (leave_advances path false) fun _ => .pure fun fs' hfs' => ?_
              obtain ⟨fs, hfs, hworked⟩ := hfs'
              exact ⟨fs, hfs.1, by simp, fun _ => (hworked.part rfl).mono (by omega)⟩
          | some counts =>
              have hemptied (fs fs' : FileSystem)
                  (hfs : tree fs ∧ some children = some (fs.children loc))
                  (hworked : Worked (config.maxFilesPerBatch.toInt - max 0 0)
                    (fun place => ∃ name ∈ children, loc ++ [name] <+: place) true fs fs') :
                  Pruned (fun place => ∃ name ∈ fs.children loc, loc ++ [name] <+: place) fs fs' :=
                Option.some.inj hfs.2 ▸ hworked.all rfl
              refine .bind (endBatch_advances _ _) fun _ =>
                .bind (leave_advances path true) fun _ => ?_
              refine .bind (safeRemove_advances hquiet hroot fun fs' hfs' => ?_) fun _ => .pure ?_
              · obtain ⟨fs, hfs, hworked⟩ := hfs'
                obtain ⟨hdirAt, hempty⟩ := (htree fs hfs.1).1.emptied (hemptied fs fs' hfs hworked)
                exact ⟨hdirAt.leads.resolve, by rw [hdirAt.dir]; rfl, hempty⟩
              · rintro fs'' ⟨_, fs', ⟨fs, hfs, hworked⟩, hself⟩
                have hall := pruned_dir (hemptied fs fs' hfs hworked) hself
                exact ⟨fs, hfs.1, fun _ => hall, by simp⟩

/-! ## Cleaning a directory of directories -/

/-- By induction on the names: the remover is called for directories only. -/
theorem cleanChildren_advances (hquiet : env.Quiet) {names : List Name}
    (htree : ∀ fs, tree fs → HasEntries env.cwd path loc depth names fs ∧
      ∀ name ∈ names, fs.node (loc ++ [name]) = some .dir) :
    Advances mark config tree (cleanChildren env depth path names) fun completed fs' =>
      ∃ fs, tree fs ∧ Worked config.maxFilesPerBatch.toInt
        (fun place => ∃ name ∈ names, loc ++ [name] <+: place) completed fs fs' := by
  induction names generalizing tree with
  | nil => exact .pure fun fs hfs => ⟨fs, hfs, fun _ => .refl (by simp), by simp⟩
  | cons name rest ih =>
      have hworks : Works env mark config (removeRecursiveBatched env depth (child path name))
          (child path name) (loc ++ [name]) depth :=
        removeRecursiveBatched_works hquiet (by simp)
      unfold cleanChildren
      refine .bind (hworks tree fun fs hfs => ?_) fun completed =>
        .ite (fun hstop => .pure ?_) fun hgo => ?_
      · obtain ⟨hentries, hdirs⟩ := htree fs hfs
        exact ⟨hentries.dirAt.entry (hdirs name (.head _)), hentries.shallow.entry name⟩
      · rintro fs' ⟨fs, hfs, hworked⟩
        exact ⟨fs, hfs, by simp, fun _ => hworked.part (by simpa using hstop)⟩
      · have hdone : completed = true := by simpa using hgo
        refine (ih fun fs' hfs' => ?_).weaken fun last fs'' hend => ?_
        · obtain ⟨fs, hfs, hworked⟩ := hfs'
          obtain ⟨hentries, hdirs⟩ := htree fs hfs
          refine ⟨hentries.pruned (hworked.all hdone), fun other hother => ?_⟩
          rw [(hworked.all hdone).kept _ (HasEntries.not_under (hentries.ne_head hother))]
          exact hdirs other (.tail _ hother)
        · obtain ⟨fs', ⟨fs, hfs, hworked⟩, hrest⟩ := hend
          have hstepped : Stepped config.maxFilesPerBatch.toInt 0
              (fun place => loc ++ [name] <+: place) (some (0, 0)) fs fs' :=
            .of_some (by omega) (hworked.all hdone)
          have hcons := hstepped.cons (htree fs hfs).1 (show (0 : Int) ≤ max 0 0 by omega)
            (by simpa using hrest)
          exact ⟨fs, hfs, by simpa using hcons⟩

/-- A cleaning empties the directory, or is told to stop after a full batch. -/
theorem cleanDirectorySafely_advances (hquiet : env.Quiet) {targetDir : CacheDirInfo}
    (htree : ∀ fs, tree fs → DirAt env.cwd targetDir.path loc fs ∧ fs.Shallow loc (depth + 1) ∧
      ∀ name ∈ fs.children loc, fs.node (loc ++ [name]) = some .dir) :
    Advances mark config tree (cleanDirectorySafely env depth targetDir) fun completed fs' =>
      ∃ fs, tree fs ∧ Worked config.maxFilesPerBatch.toInt
        (fun place => ∃ name ∈ fs.children loc, loc ++ [name] <+: place) completed fs fs' := by
  unfold cleanDirectorySafely
  refine .bind (getDirectoryChildren_advances hquiet fun fs hfs => (htree fs hfs).1)
    fun children => ?_
  cases children with
  | none => exact .pure fun fs hfs => by cases hfs.2
  | some children =>
      have hentries (fs : FileSystem) (hfs : tree fs ∧ some children = some (fs.children loc)) :
          HasEntries env.cwd targetDir.path loc depth children fs ∧
            ∀ name ∈ children, fs.node (loc ++ [name]) = some .dir := by
        rw [Option.some.inj hfs.2]
        obtain ⟨hdirAt, hshallow, hdirs⟩ := htree fs hfs.1
        exact ⟨hdirAt.hasEntries hshallow, hdirs⟩
      refine .bind (enter_advances _) fun _ => ?_
      refine .bind (cleanChildren_advances hquiet hentries) fun completed => ?_
      have hresult (fs' : FileSystem)
          (hfs' : ∃ fs, (tree fs ∧ some children = some (fs.children loc)) ∧
            Worked config.maxFilesPerBatch.toInt
              (fun place => ∃ name ∈ children, loc ++ [name] <+: place) completed fs fs') :
          ∃ fs, tree fs ∧ Worked config.maxFilesPerBatch.toInt
            (fun place => ∃ name ∈ fs.children loc, loc ++ [name] <+: place) completed fs fs' := by
        obtain ⟨fs, hfs, hworked⟩ := hfs'
        rw [Option.some.inj hfs.2] at hworked
        exact ⟨fs, hfs.1, hworked⟩
      refine .bind (leave_advances _ completed) fun _ => .ite (fun hstop => ?_) fun hgo => ?_
      · rw [Bool.not_eq_true'] at hstop
        exact .pure fun fs' hfs' => hstop ▸ hresult fs' hfs'
      -- making and saving the record changes no entry
      · rw [Bool.not_eq_true', Bool.not_eq_false] at hgo
        refine .bind getProcess_advances fun process => .bind (sense_advances _) fun now => ?_
        refine .bind (setProcess_advances fun _ => rfl) fun _ => .bind (note_advances _) fun _ => ?_
        refine .bind save_advances fun _ => .pure fun fs' hfs' => ?_
        exact hgo ▸ hresult fs' hfs'.1

end Removal

end FreshCore
