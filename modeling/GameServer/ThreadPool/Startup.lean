/-
  `init_thread_pool`.

  The loop that creates the workers runs up to `pool->thread_num`, which the `memset` before
  it has set to 0 and only its own body increments. So no worker is created, whatever the
  number asked for (`creates_nothing`), and `init_thread_pool` returns 0 without having
  started one (`never_starts_up`).
-/
import GameServer.Lib.CInt
import GameServer.ThreadPool.Queue

namespace GameServer.ThreadPool

open CInt

/-- `sizeof(pthread_t)` -/
def sizeofPthread : Nat := 8

/-- `thread_pool_t`, without its lock and its condition variable. Of `pids` only the number of
    bytes behind it is kept. -/
structure ThreadPoolT where
  threadNum : Int
  started : Int
  pids : Option Nat
  queue : Option TaskQueue

/-- `memset(pool, 0, sizeof(thread_pool_t))` -/
def ThreadPoolT.zero : ThreadPoolT := ⟨0, 0, none, none⟩

/-- What the system answers: whether the four `malloc` calls succeed, what the last of them
    finds in its memory, and the result of each call of `pthread_create`, from call 0 on. -/
structure Answers where
  poolMalloc : Bool
  pidsMalloc : Bool
  queueMalloc : Bool
  tasksMalloc : Bool
  tasks : Nat → ThreadTask
  create : Nat → Int

/-- A return of `init_thread_pool`: its value, the pool, the indices `i` of the calls
    `pthread_create(&pids[i], ..)` in order, and what it wrote to `stderr`. -/
structure Startup where
  rv : Int
  pool : Option ThreadPoolT
  created : List Int
  stderr : List String

/-- The loop over `i`, at most `fuel` times round. -/
def createWorkers (create : Nat → Int) (tasks : Nat → ThreadTask) :
    Nat → Int → ThreadPoolT → List Int → Option Startup
  | 0, _, _, _ => none
  | fuel + 1, i, pool, created =>
    if i < pool.threadNum then
      if create created.length ≠ 0 then
        some ⟨-2, some pool, created ++ [i], ["pthread_create error!!!!\n"]⟩
      else
        createWorkers create tasks fuel (i32 (i + 1))
          { pool with threadNum := i32 (pool.threadNum + 1), started := i32 (pool.started + 1) }
          (created ++ [i])
    else some ⟨0, some { pool with queue := some (.init tasks) }, created, []⟩

/-- `init_thread_pool` -/
def initThreadPool (sys : Answers) (threadNum : Int) (fuel : Nat) : Option Startup :=
  if sys.poolMalloc = false then some ⟨-1, none, [], ["malloc thread_pool_t error!!!!\n"]⟩
  else if sys.pidsMalloc = false then
    some ⟨-1, some .zero, [], ["malloc thread ids error!!!!\n"]⟩
  else
    let pool : ThreadPoolT :=
      { ThreadPoolT.zero with pids := some (sizeofPthread * sizeT threadNum) }
    if sys.queueMalloc = false then some ⟨-1, some pool, [], ["malloc task queue error!!!!\n"]⟩
    else if sys.tasksMalloc = false then
      some ⟨-1, some pool, [], ["malloc task queue error!!!!\n"]⟩
    else createWorkers sys.create sys.tasks fuel 0 pool []

/-- No `malloc` fails. -/
structure Answers.Available (sys : Answers) : Prop where
  poolMalloc : sys.poolMalloc = true
  pidsMalloc : sys.pidsMalloc = true
  queueMalloc : sys.queueMalloc = true
  tasksMalloc : sys.tasksMalloc = true

/-- The `n` creations succeed up to the first that fails, which is number `k`. -/
def FailsFirstAt (create : Nat → Int) (k : Nat) : Prop :=
  create k ≠ 0 ∧ ∀ j < k, create j = 0

/-- What `init_thread_pool(n)` is to do: create `n` workers, or as many as can be created. -/
structure StartsUp (create : Nat → Int) (n : Int) (st : Startup) : Prop where
  calls : (st.created.length : Int) ≤ n
  writes : ∀ i ∈ st.created, 0 ≤ i ∧ i < n
  zero_iff : st.rv = 0 ↔ ∀ k : Nat, (k : Int) < n → create k = 0
  succeeded : st.rv = 0 → (st.created.length : Int) = n ∧
    ∃ pool ∈ st.pool, pool.threadNum = n ∧ pool.started = n
  failed : st.rv ≠ 0 → st.rv = -2 ∧
    ∃ k : Nat, (k : Int) < n ∧ FailsFirstAt create k ∧ ∃ pool ∈ st.pool, pool.started = k

/-- The loop ends before its first round. -/
theorem creates_nothing {sys : Answers} (h : sys.Available) (n : Int) (fuel : Nat) :
    initThreadPool sys n (fuel + 1) = some
      { rv := 0
        pool := some
          { ThreadPoolT.zero with
            pids := some (sizeofPthread * sizeT n), queue := some (.init sys.tasks) }
        created := []
        stderr := [] } := by
  obtain ⟨hpool, hpids, hqueue, htasks⟩ := h
  unfold initThreadPool
  rw [hpool, hpids, hqueue, htasks]
  rfl

/-- Whatever number of workers is asked for and whichever creations would fail,
    `init_thread_pool` does not start up the pool. -/
theorem never_starts_up {sys : Answers} (h : sys.Available) {n : Int} (hn : 1 ≤ n) :
    ¬ ∃ fuel st, initThreadPool sys n fuel = some st ∧ StartsUp sys.create n st := by
  rintro ⟨fuel, st, hst, hup⟩
  cases fuel with
  | zero =>
    obtain ⟨hpool, hpids, hqueue, htasks⟩ := h
    unfold initThreadPool at hst
    rw [hpool, hpids, hqueue, htasks] at hst
    cases hst
  | succ fuel =>
    rw [creates_nothing h] at hst
    obtain rfl := Option.some.inj hst
    obtain ⟨hlen, -⟩ := hup.succeeded rfl
    have hzero : (0 : Int) = n := hlen
    omega

/-- All calls succeed. -/
def plenty : Answers := ⟨true, true, true, true, fun _ => ⟨none, none⟩, fun _ => 0⟩

theorem plenty_never_starts_up :
    ¬ ∃ fuel st, initThreadPool plenty 4 fuel = some st ∧ StartsUp plenty.create 4 st :=
  never_starts_up ⟨rfl, rfl, rfl, rfl⟩ (by decide)

/-- Four workers are asked for, no creation is tried, and the pool returned has none. -/
theorem four_workers_missing : ∃ st, initThreadPool plenty 4 1 = some st ∧
    st.rv = 0 ∧ st.created = [] ∧ (st.pool.map fun pool => (pool.threadNum, pool.started)) =
      some (0, 0) ∧ ¬ StartsUp plenty.create 4 st := by
  refine ⟨_, rfl, rfl, rfl, rfl, fun hup => ?_⟩
  obtain ⟨hlen, -⟩ := hup.succeeded rfl
  exact absurd hlen (by decide)

end GameServer.ThreadPool
