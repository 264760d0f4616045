import TailBlend.BlockPoolSpec
import TailBlend.FreeBlockQueue

/-! The block pool over its linked queue: what the pool calls on it keeps the two in step. -/
namespace TailBlend.BlockPool
open FreeKVCacheBlockQueue KVCacheBlock List

inductive PoolOp where
  | getNewBlocks (n : Nat)
  | touch (b : Nat)
  | freeBlocks (blocks : List Nat)

variable (p : BlockPool)

/-- The pool after an operation, and the blocks that it hands out. -/
def perform : PoolOp → Except PyError (BlockPool × List Nat)
  | .getNewBlocks n => p.getNewBlocks n
  | .touch b => do return (← p.touchOne b, [])
  | .freeBlocks blocks => .ok (p.freeBlocks blocks, [])

/-- One that is refused changes nothing. -/
def after (op : PoolOp) : BlockPool :=
  match p.perform op with
  | .ok (p', _) => p'
  | .error _ => p

/-- What it calls on the queue; a request for too many blocks is refused before. -/
def calls : PoolOp → List Op
  | .getNewBlocks n => if (n : Int) > p.numFreeBlocks then [] else [.popleftN n]
  | .touch b => if p.refCnt b = 0 ∧ b ≠ 0 then [.remove (block b)] else []
  | .freeBlocks blocks =>
    [.appendN ((blocks.filter (fun b => (p.freeBlocks blocks).refCnt b = 0 ∧ b ≠ 0)).map block)]

/-- Real blocks are touched, and each one freed is referenced and named once. -/
def Legal : PoolOp → Prop
  | .getNewBlocks _ => True
  | .touch b => b < p.numGpuBlocks
  | .freeBlocks blocks => (∀ b, b ≠ 0 → blocks.count b ≤ 1) ∧
      ∀ b ∈ blocks, b ≠ 0 → b < p.numGpuBlocks ∧ 1 ≤ p.refCnt b

def LegalRun : BlockPool → List PoolOp → Prop
  | _, [] => True
  | p, op :: ops => Legal p op ∧ LegalRun (p.after op) ops

/-- The operation succeeds and its calls return the blocks that it goes on with, or it is a request
for more blocks than are free. -/
def Answered (q : FreeKVCacheBlockQueue) (op : PoolOp) : Prop :=
  match p.perform op with
  | .ok (_, ret) =>
    (run step q (p.calls op)).1 = (p.calls op).map (fun _ => .ok (ret.map block))
  | .error _ => ∃ n : Nat, op = .getNewBlocks n ∧ p.numFreeBlocks < n

/-- Every operation is answered, and at last the queue holds the free blocks. -/
def InStep : BlockPool → FreeKVCacheBlockQueue → List PoolOp → Prop
  | p, q, [] => Holds q (p.freeBlockQueue.map block) ∧ q.numFreeBlocks = p.numFreeBlocks
  | p, q, op :: ops => Answered p q op ∧ InStep (p.after op) (run step q (p.calls op)).2 ops

variable {p} {p' : BlockPool} {q : FreeKVCacheBlockQueue} {op : PoolOp} {ret : List Nat}

theorem block_injective : Function.Injective block := fun _ _ h => KVCacheBlock.block.inj h

theorem queued_nodup {l : List Nat} (h : l.Nodup) :
    (fakeHead :: l.map block ++ [fakeTail]).Nodup := by
  simpa [nodup_append] using h.map block_injective

section
variable (hp : PoolOK p) (hh : HashOK p)
include hp hh

/-- The calls of an operation, on the plain list. -/
theorem perform_list (hl : Legal p op) (he : p.perform op = .ok (p', ret)) :
    PoolOK p' ∧ HashOK p' ∧ Permitted (p.freeBlockQueue.map block) (p.calls op) ∧
      run listStep (p.freeBlockQueue.map block) (p.calls op) =
        ((p.calls op).map (fun _ => .ok (ret.map block)), p'.freeBlockQueue.map block) := by
  cases op with
  | getNewBlocks n =>
    have hnew := getNewBlocks_spec hp hh (Int.natCast_nonneg n) he
    have hlen : n ≤ p.freeBlockQueue.length := by
      have := hnew.length
      rw [hnew.ret_eq, length_take] at this
      omega
    have hfree : ¬ (n : Int) > p.numFreeBlocks := by
      have := hp.count
      omega
    rw [calls, if_neg hfree]
    refine ⟨hnew.poolOK, hnew.hashOK, ⟨queued_nodup hp.nodup, trivial⟩, ?_⟩
    simp [run, listStep, hlen, hnew.ret_eq, hnew.free]
  | touch b =>
    obtain ⟨p1, h1, hs⟩ := touchOne_spec hp (.inr hl)
    simp only [perform, h1] at he
    cases he
    refine ⟨hs.poolOK, hh.of_eq hs.config hs.hash hs.cached, ?_⟩
    unfold touchOne at h1
    split_ifs at h1 with hz hmem <;> cases h1
    · simp only [calls, if_pos hz]
      refine ⟨⟨queued_nodup hp.nodup, trivial⟩, ?_⟩
      simp [run, listStep, hmem, map_erase block_injective]
    · rw [calls, if_neg hz]
      exact ⟨trivial, rfl⟩
  | freeBlocks blocks =>
    have hs := freeBlocks_spec hp (fun b hb h0 => (hl.2 b hb h0).1) hl.1
      (fun b hb h0 => (hl.2 b hb h0).2)
    cases he
    refine ⟨hs.poolOK, hh.of_eq hs.config hs.hash hs.cached, ⟨?_, trivial⟩, ?_⟩
    · -- the new free list has no block twice, so what is appended was not queued
      have hn := queued_nodup hs.poolOK.nodup
      change (fakeHead :: map block (p.freeBlockQueue ++ _) ++ [fakeTail]).Nodup at hn
      rw [map_append, ← cons_append, append_assoc] at hn
      exact (perm_append_comm.append_left _).nodup hn
    · simp [run, calls, listStep, freeBlocks]

/-- Only a request for more blocks than are free is refused. -/
theorem perform_ok (hl : Legal p op) :
    (∃ p' ret, p.perform op = .ok (p', ret)) ∨
      (∃ n : Nat, op = .getNewBlocks n ∧ p.numFreeBlocks < n) ∧
        (∃ e, p.perform op = .error e) ∧ p.calls op = [] := by
  cases op with
  | getNewBlocks n =>
    by_cases hn : (n : Int) > p.numFreeBlocks
    · exact .inr ⟨⟨n, rfl, hn⟩, ⟨_, if_pos hn⟩, if_pos hn⟩
    · obtain ⟨p', ret, he, -⟩ := getNewBlocks_of_le hp hh (Int.natCast_nonneg n) (not_lt.mp hn)
      exact .inl ⟨p', ret, he⟩
  | touch b =>
    obtain ⟨p', he, -⟩ := touchOne_spec hp (.inr hl)
    exact .inl ⟨p', [], by rw [perform, he]; rfl⟩
  | freeBlocks blocks => exact .inl ⟨_, _, rfl⟩

theorem inStep (hq : Holds q (p.freeBlockQueue.map block)) {ops : List PoolOp}
    (hops : LegalRun p ops) : InStep p q ops := by
  induction ops generalizing p q with
  | nil => exact ⟨hq, hq.num.trans (by simp [hp.count])⟩
  | cons op ops ih =>
    obtain ⟨hl, hops⟩ := hops
    rcases perform_ok hp hh hl with ⟨p', ret, he⟩ | ⟨hrefused, ⟨e, he⟩, hnone⟩
    · obtain ⟨hp', hh', hperm, hlist⟩ := perform_list hp hh hl he
      obtain ⟨hret, hq'⟩ := run_agrees hq hperm
      rw [hlist] at hret hq'
      rw [after, he] at hops
      rw [InStep, Answered, after, he]
      exact ⟨hret, ih hp' hh' hq' hops⟩
    · rw [after, he] at hops
      rw [InStep, Answered, after, he, hnone]
      exact ⟨hrefused, ih hp hh hq hops⟩

end

/-- The pool and its linked queue stay in step from the start, where the null block is popped. -/
theorem pool_over_queue (n : Nat) (caching : Bool) (size : Nat) (events : Bool)
    {ops : List PoolOp} (hops : LegalRun (init (n + 1) caching size events) ops) :
    let s := (FreeKVCacheBlockQueue.init ((range (n + 1)).map block)).popleft
    s.1 = .ok [block 0] ∧ InStep (init (n + 1) caching size events) s.2 ops := by
  have hl : (range (n + 1)).map block =
      block 0 :: (init (n + 1) caching size events).freeBlockQueue.map block := by
    simp [init, range_succ_eq_map]
  obtain ⟨hret, hq⟩ := popleft_agrees (init_holds (queued_nodup (nodup_range (n := n + 1))))
  generalize FreeKVCacheBlockQueue.init _ = q at hret hq ⊢
  rw [hl] at hret hq
  exact ⟨hret, inStep (poolOK_init _ _ _ _ n.succ_pos) (hashOK_init _ _ _ _) hq hops⟩

/-- Of three blocks two are handed out, a request for two more is refused, the third is touched,
and two come back. -/
theorem pool_over_queue_refused :
    let s := (FreeKVCacheBlockQueue.init ((range 4).map block)).popleft
    s.1 = .ok [block 0] ∧ InStep (init 4 true 2 false) s.2
      [.getNewBlocks 2, .getNewBlocks 2, .touch 3, .freeBlocks [3, 1], .getNewBlocks 1] :=
  pool_over_queue 3 true 2 false ⟨trivial, trivial, (by decide : 3 < 4),
    ⟨fun b _ => nodup_iff_count_le_one.mp (by decide) b, by decide⟩, trivial, trivial⟩

end TailBlend.BlockPool
