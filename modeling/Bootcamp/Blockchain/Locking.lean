import Bootcamp.Blockchain.Parallel
import Bootcamp.Lib.Mutex

/-! `heads` and `tails` under their mutex, step by step: the threads lock it, put into the
containers what they have found, and unlock it. `Run` has these sections in one piece. -/
namespace Bootcamp

/-- The threads in front of their sections. -/
def atMutex (results : List ChunkResult) : Mutex.State Shared SharedOp :=
  .start .start (results.map ChunkResult.sections)

namespace Run

variable {readChunk : ChunkReader} {c : Crypto} {data : Bytes} {hd : Header}
  {results : List ChunkResult} {k : Nat} {s : Mutex.State Shared SharedOp}

/-- An execution that comes to its end is a run, whatever order the containers then have. -/
theorem exists_of_mutex {resize : Resize} (extracted : extractHeader resize data = .ok (some hd))
    (count : 0 < hd.chunks.toNat ∧ hd.chunks.toNat ≤ 32)
    (joined : threads readChunk c data hd = results.map .ok)
    (hrun : Mutex.Run Shared.apply (atMutex results) k s) (hs : s.Finished) {headOrder : List Ptr}
    {tailOrder : List (HashResult × Ptr)} (headPerm : headOrder.Perm s.shared.heads)
    (tailPerm : tailOrder.Perm s.shared.tails.entries) :
    ∃ run : Run readChunk c data, run.results = results ∧ run.shared = s.shared ∧
      run.headOrder = headOrder ∧ run.tailOrder = tailOrder := by
  obtain ⟨interleaved, hshared⟩ := hrun.serialised hs
  rw [hshared] at headPerm tailPerm
  exact ⟨⟨resize, hd, extracted, count, results, joined, s.entered, interleaved, headOrder, headPerm,
    tailOrder, tailPerm⟩, rfl, hshared.symm, rfl, rfl⟩

/-- And every run is one. -/
theorem exists_mutex (run : Run readChunk c data) : ∃ k s,
    Mutex.Run Shared.apply (atMutex run.results) k s ∧ s.Finished ∧ s.shared = run.shared := by
  obtain ⟨k, s, hrun, hs, hentered⟩ : ∃ k s, Mutex.Run Shared.apply (atMutex run.results) k s ∧
      s.Finished ∧ s.entered = run.schedule :=
    Mutex.exists_run run.interleaved Shared.start
  refine ⟨k, s, hrun, hs, ?_⟩
  rw [(hrun.serialised hs).2, hentered, shared]

end Run

/-- The mutex of `readindexed`. In every execution of the threads, step by step, at most one is
between lock and unlock; none waits for ever, as some thread can go on until all are done, which
is after a fixed number of steps; and the containers are then those of a run whose sections take
place in one piece. Every such run comes from an execution. -/
theorem readindexed_serialised {readChunk : ChunkReader} {c : Crypto} {data : Bytes} {hd : Header}
    {resize : Resize} {results : List ChunkResult}
    (extracted : extractHeader resize data = .ok (some hd))
    (count : 0 < hd.chunks.toNat ∧ hd.chunks.toNat ≤ 32)
    (joined : threads readChunk c data hd = results.map .ok) :
    (∀ k s, Mutex.Run Shared.apply (atMutex results) k s →
      s.threads.countP (fun t => t.inside.isSome) ≤ 1 ∧
      (¬ s.Finished → ∃ s', Mutex.Step Shared.apply s s') ∧
      (s.Finished ↔ k = (atMutex results).work) ∧
      (s.Finished → ∀ headOrder tailOrder, headOrder.Perm s.shared.heads →
        tailOrder.Perm s.shared.tails.entries → ∃ run : Run readChunk c data,
          run.results = results ∧ run.shared = s.shared ∧ run.headOrder = headOrder ∧
            run.tailOrder = tailOrder)) ∧
    (∀ run : Run readChunk c data, run.results = results → ∃ k s,
      Mutex.Run Shared.apply (atMutex results) k s ∧ s.Finished ∧ s.shared = run.shared) := by
  constructor
  · intro k s hrun
    refine ⟨hrun.exclusive, hrun.progress, hrun.finished_iff, fun hs headOrder tailOrder => ?_⟩
    exact Run.exists_of_mutex extracted count joined hrun hs
  · rintro run rfl
    exact run.exists_mutex

theorem two_chunks_serialised :
    (∀ k s, Mutex.Run Shared.apply (atMutex twoChunksRun.results) k s →
      s.threads.countP (fun t => t.inside.isSome) ≤ 1 ∧
      (¬ s.Finished → ∃ s', Mutex.Step Shared.apply s s') ∧
      (s.Finished ↔ k = (atMutex twoChunksRun.results).work) ∧
      (s.Finished → ∀ headOrder tailOrder, headOrder.Perm s.shared.heads →
        tailOrder.Perm s.shared.tails.entries →
        ∃ run : Run ChunkDay.four.readChunk .toy (indexedFile twoChunks),
          run.results = twoChunksRun.results ∧ run.shared = s.shared ∧ run.headOrder = headOrder ∧
            run.tailOrder = tailOrder)) ∧
    (∀ run : Run ChunkDay.four.readChunk .toy (indexedFile twoChunks),
      run.results = twoChunksRun.results → ∃ k s,
        Mutex.Run Shared.apply (atMutex twoChunksRun.results) k s ∧ s.Finished ∧
          s.shared = run.shared) :=
  readindexed_serialised twoChunksRun.extracted twoChunksRun.count twoChunksRun.joined

end Bootcamp
