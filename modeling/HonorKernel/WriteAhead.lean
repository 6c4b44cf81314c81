import HonorKernel.LogInvariant

namespace LogThreads
open DiskFormat Semaphores BlockCache

-- When cache_end_op is about to write a block home, the header on disk is the one its
-- commit wrote, it lists the block, the slot holds what is written, and no operation
-- still running has synced the block; what a running operation synced stays listed.
def WriteAhead (sb : SuperBlock) (s : State n) : Prop :=
  (∀ t i b h, (s.threads t).pc = .home i b h false →
    s.cache.device (logHead sb) = h ∧
    (∃ j, j < h.numBlocks ∧ h.blockNo j = b ∧ s.cache.device (logSlot sb j) = s.cache.view b) ∧
    ∀ u, (s.threads u).pc = .running → b ∉ (s.threads u).synced) ∧
  ∀ u, (s.threads u).pc = .running → ∀ b ∈ (s.threads u).synced, b ∈ s.cache.header.blocks

theorem Logged.writeAhead {sb : SuperBlock} {s : State n} (logged : Logged sb s) : WriteAhead sb s := by
  refine ⟨?_,?_⟩
  · intro t i b h here
    have window := logged.window here
    refine ⟨window.remaining.published,⟨i,window.index,window.block,?_⟩,?_⟩
    · rw [← window.block]
      exact window.remaining.logged i (Nat.le_refl i) window.index
    · intro u running member
      rw [window.synced u (by rw [running]; rfl)] at member
      cases member
  · intro u running b member
    rcases logged.phase with calm | ⟨t,i,c,h,w,window⟩
    · exact calm.synced u running b member
    · rw [window.synced u (by rw [running]; rfl)] at member
      cases member

theorem careful_writes_ahead {sb : SuperBlock} {start s : State n} (boot : Booted sb start)
    (path : Runs.Guarded (next sb) (Careful sb) start s) : WriteAhead sb s :=
  (guarded_logged boot path).writeAhead

-- One operation that changes block `b`, up to the call of cache_end_op.
def update (t : Fin n) (b : Usize) (d : BlockData) : List (Action n) :=
  [.beginOp t,.acquire t b,.modify t b d,.sync t b,.release t b]

-- What a thread is about to write home.
def Pc.copying : Pc → Option (Usize × LogHeader)
  | .home _ b h false => some (b,h)
  | _ => none

theorem copying_home {pc : Pc} {b : Usize} {h : LogHeader} (copying : pc.copying = some (b,h)) :
    ∃ i, pc = .home i b h false := by
  cases pc with
  | home i b' h' written =>
    cases written with
    | false =>
      cases copying
      exact ⟨i,rfl⟩
    | true => cases copying
  | _ => cases copying

-- Thread 0 is writing block 100 home when thread 1 synchronises block 200; the loop
-- finds the longer header and takes up block 200, which no commit has logged.
theorem late_sync_written_home : ¬ ∀ start s : State 2, Booted mkfsSuperBlock start →
    Runs.Reached (next mkfsSuperBlock) start s → WriteAhead mkfsSuperBlock s := by
  intro ahead
  obtain ⟨⟨start,s⟩,ran,facts⟩ := Runs.some_such
    (x := fromBoot 2 (Runs.exec (next mkfsSuperBlock) · (update 0 100#64 1#4096++[.endOp 0]++update 1 200#64 2#4096++
      [.writeHome 0,.proceed 0])))
    (p := fun r => (r.2.threads 0).pc.copying.any fun copy : Usize × LogHeader => decide
        (copy.1 = 200#64 ∧ 200#64 ∉ copy.2.blocks)) (by decide +kernel)
  obtain ⟨boot,path⟩ := fromBoot_parts ran
  have ahead := ahead start s boot (Runs.exec_reached .start path)
  rw [Option.any_eq_true] at facts
  obtain ⟨⟨b,h⟩,copied,facts⟩ := facts
  obtain ⟨i,here⟩ := copying_home copied
  obtain ⟨rfl,unlisted⟩ := of_decide_eq_true facts
  obtain ⟨_,⟨j,small,listed,_⟩,_⟩ := ahead.1 0 i 200#64 h here
  exact unlisted ((h.mem_blocks _).mpr ⟨j,small,listed⟩)

theorem careful_writes_ahead_two_threads : ∃ s : State 2, (s.threads 0).pc.block = some 100#64 ∧
    (s.threads 1).pc = .running ∧ WriteAhead mkfsSuperBlock s := by
  obtain ⟨⟨start,s⟩,ran,facts⟩ := Runs.some_such
    (x := fromBoot 2 (Runs.execGuarded (next mkfsSuperBlock) (Careful mkfsSuperBlock) ·
      (update 0 100#64 1#4096++[.endOp 0,.beginOp 1,.acquire 1 200#64,.modify 1 200#64 2#4096])))
    (p := fun r => decide ((r.2.threads 0).pc.block = some 100#64 ∧ (r.2.threads 1).pc = .running)) (by decide +kernel)
  obtain ⟨boot,path⟩ := fromBoot_parts ran
  obtain ⟨home,running⟩ := of_decide_eq_true facts
  exact ⟨s,home,running,careful_writes_ahead boot (Runs.exec_guarded .start path)⟩

end LogThreads
