import Mathlib.Data.UInt
import PoQ.Lib.Abort

/-!
# Data shared by server and client

The node record of `general_structs.h`, the constants of the headers, and the ways in which a call can
end before it returns.
-/

namespace PoQ

/-- The range of `uint`. -/
def uintSize : ℕ := 2 ^ 32

/-- One more than the largest `int`. -/
def intSize : ℕ := 2 ^ 31

/-- Storing an integer in a `uint` variable. -/
def toUint (i : ℤ) : ℕ := (i % uintSize).toNat

/-- Storing a natural number in an `int` variable. -/
def toInt (d : ℕ) : ℤ := (d : ℤ).bmod (2 ^ 32)

/-- `node_t`. The fields are `uint`; where a value is stored in one of them the reduction is
explicit. -/
structure Node where
  nodeId : ℕ
  arrivalTime : ℕ
  sgxTime : ℕ
  nLeadership : ℕ
  timeLeft : ℕ
deriving DecidableEq, Repr

/-- What keeps a call from returning: an assertion that fails, an access the language leaves undefined,
or input that does not come. The assertions, by file, function and line:

* `poet_shared_functions.cpp`: `tierInRange` is that of `calc_tier_number` (97); `ntiersPositive` and
  `sgxMaxPositive` of `calc_quantum_times` (110, 111); `foundAndFinished` of `calc_leadership_time`
  (210); `queueIdInTable`, `remainingTimeNonneg` and `commDelayNonneg` of `calc_leadership_time` (188,
  198, 214) and `calc_notification_times` (252, 262, 245); `threadNotNull` of
  `delegate_thread_to_function` (335); `locksPositive` of `nrwlock_timedxlocks`, `nrwlock_xlocks` and
  `nmutex_locks` (364, 419, 504).
* `poet_client.cpp`: `notificationNotLater` and `notificationTimePassed` of
  `starting_time_calculation` (656, 674); `timeLeftPositive` and `timeLeftBelowSgxTime` of
  `notify_readdition_of_node_into_queue` (554, 563).
* `general_structs.cpp`: `dataIsObject` of `json_to_node_t` (42).
* `poet_server.cpp`: `functionFound` of `delegate_message` (162).
* `POET++.cpp`: `startNotAfterEnd` of `randint` (51); `tierInRange` of its `calc_tier_number` (124);
  `sgxTimePositive` of `calculate_quantum_time` (165).
* `poet_server_functions.cpp`: `repeatedAtLeastTwice` of `queue_delete_continuous_nodes` (211);
  `entryHasNodeId` and `sgxTimeIsTimeLeft` of `insert_node_into_sgx_table_and_queue` (306, 307);
  `entryHasNodeId` and `timeLeftNotIncreased` of `poet_unfinished_node` (647, 648).

`nullPointer` and `outOfRange` are accesses through a null pointer and outside a vector or a block of
memory, `divisionByZero` a remainder for the divisor 0, `intOverflow` an `int` that is counted out of its
range, `blocked` a wait for something that has not happened, and `outOfFuel` a loop that did not end
within its fuel. -/
inductive Abort
  | tierInRange
  | ntiersPositive
  | sgxMaxPositive
  | queueIdInTable
  | remainingTimeNonneg
  | foundAndFinished
  | commDelayNonneg
  | threadNotNull
  | locksPositive
  | notificationNotLater
  | notificationTimePassed
  | timeLeftPositive
  | timeLeftBelowSgxTime
  | dataIsObject
  | functionFound
  | repeatedAtLeastTwice
  | entryHasNodeId
  | sgxTimeIsTimeLeft
  | timeLeftNotIncreased
  | startNotAfterEnd
  | sgxTimePositive
  | nullPointer
  | outOfRange
  | divisionByZero
  | intOverflow
  | blocked
  | outOfFuel
deriving DecidableEq, Repr

/-- Every entry of the table stands at the index that is its id. -/
def IndexedById (table : List Node) : Prop :=
  ∀ (i : ℕ) (node : Node), table[i]? = some node → node.nodeId = i

end PoQ
