import SphereMultithreading.Model.P6.Cleaner

/-! # Workers and cleaner of p6 on the section semaphores

Each worker executes one query at a time between `sem_down` and `sem_up` of a section, and the
cleaner visits the sections in turn. All processes share the memory of the table and an array of
counting semaphores, created with value 1. A step is an operation on a semaphore, a call of the
table, or one of the events that lead from one query or one visit to the next.

The names of the two helpers of `Worker` are kept: `sem_down` posts and `sem_up` waits.
-/

namespace SphereMultithreading.Model.P6

open Model.HashTable HashTable

inductive OpType where
  | GET
  | SET
  | DEL
deriving DecidableEq, Repr

structure Query where
  key : ℤ
  value : ℤ
  ttl : ℤ
  op : OpType
deriving DecidableEq, Repr

namespace Query

/-- The call of the table in the `switch` of `execute_query`. -/
def call (query : Query) : HashTable.Call :=
  match query.op with
  | .SET => .set query.key query.ttl query.value
  | .GET => .get query.key
  | .DEL => .del query.key

/-- The text `execute_query` leaves in `buffer`. -/
def answer (query : Query) : HashTable.Reply → String
  | .ok value =>
      match query.op with
      | .GET => "> DONE: (" ++ toString query.key ++ " , " ++
          toString (value.getD query.value) ++ ")\n"
      | _ => "> DONE\n"
  | .error err =>
      match err.type with
      | .NoKey => "> FAIL: There is no key " ++ toString query.key ++ "\n"
      | .NoMemory => "> FAIL: There is no more free memory left\n"
      | .NotExists => "> FAIL: Element with key " ++ toString query.key ++ " is expired\n"

/-- The index `execute_query` computes. -/
def semId (query : Query) : ℕ := (getHash query.key : ℕ) / numSections

end Query

/-- A process of the system: a worker, or the cleaner. -/
abbrev Process (n : ℕ) := Option (Fin n)

/-- Where a worker stands. Before `sem_down` the index is just a number; the semaphore it has
posted is one of the array. -/
inductive Worker where
  | idle
  | down (query : Query)
  | call (query : Query) (semId : Fin numSections)
  | up (query : Query) (semId : Fin numSections) (buffer : String)
  | send (buffer : String)
deriving DecidableEq, Repr

/-- Where the cleaner stands, with the section and the bucket index its two loops have reached. -/
inductive Cleaner where
  | sleeping
  | wait (j : Fin numSections) (i : ℕ)
  | clean (j : Fin numSections) (i : ℕ)
  | post (j : Fin numSections) (i : ℕ)
deriving DecidableEq, Repr

structure Sections (n : ℕ) where
  memory : HashTable
  sems : Fin numSections → ℕ
  workers : Fin n → Worker
  cleaner : Cleaner

namespace Sections

variable {n : ℕ}

/-- The state after `create_semaphors`, for any contents of the memory. -/
def init (memory : HashTable) : Sections n where
  memory := memory
  sems := fun _ => 1
  workers := fun _ => .idle
  cleaner := .sleeping

def setWorker (s : Sections n) (w : Fin n) (worker : Worker) : Sections n :=
  { s with workers := Function.update s.workers w worker }

def setCleaner (s : Sections n) (cleaner : Cleaner) : Sections n := { s with cleaner := cleaner }

def setSem (s : Sections n) (i : Fin numSections) (value : ℕ) : Sections n :=
  { s with sems := Function.update s.sems i value }

def semPost (s : Sections n) (i : Fin numSections) : Sections n := s.setSem i (s.sems i + 1)

/-- `none` while the caller is blocked. -/
def semWait (s : Sections n) (i : Fin numSections) : Option (Sections n) :=
  if 0 < s.sems i then some (s.setSem i (s.sems i - 1)) else none

inductive Action (n : ℕ) where
  | query (w : Fin n) (query : Query)
  | semDown (w : Fin n)
  | call (w : Fin n) (clock : ℕ → ℤ)
  | semUp (w : Fin n)
  | send (w : Fin n)
  | wake
  | semWait
  | clean (clock : ℕ → ℤ)
  | semPost

def query (s : Sections n) (w : Fin n) (query : Query) : Option (Sections n) :=
  match s.workers w with
  | .idle => some (s.setWorker w (.down query))
  | _ => none

/-- `sem_down` posts. An index past the array of semaphores is undefined and has no step. -/
def semDown (s : Sections n) (w : Fin n) : Option (Sections n) :=
  match s.workers w with
  | .down query =>
      if valid : query.semId < numSections then
        some ((s.semPost ⟨query.semId, valid⟩).setWorker w (.call query ⟨query.semId, valid⟩))
      else none
  | _ => none

/-- A call of the table is one step here, as is a visit of the cleaner, which it amounts to as long as nobody
else is at the table; the semaphores do not see to that. -/
def call (s : Sections n) (w : Fin n) (clock : ℕ → ℤ) : Option (Sections n) :=
  match s.workers w with
  | .call query semId =>
      (s.memory.call clock query.call).map fun (reply, memory) =>
        { s with memory := memory }.setWorker w (.up query semId (query.answer reply))
  | _ => none

/-- `sem_up` waits. -/
def semUp (s : Sections n) (w : Fin n) : Option (Sections n) :=
  match s.workers w with
  | .up _ semId buffer => (s.semWait semId).map fun s => s.setWorker w (.send buffer)
  | _ => none

def send (s : Sections n) (w : Fin n) : Option (Sections n) :=
  match s.workers w with
  | .send _ => some (s.setWorker w .idle)
  | _ => none

def cleanerWake (s : Sections n) : Option (Sections n) :=
  match s.cleaner with
  | .sleeping => some (s.setCleaner (.wait 0 0))
  | _ => none

def cleanerWait (s : Sections n) : Option (Sections n) :=
  match s.cleaner with
  | .wait j i => (s.semWait j).map fun s => s.setCleaner (.clean j i)
  | _ => none

def cleanerClean (s : Sections n) (clock : ℕ → ℤ) : Option (Sections n) :=
  match s.cleaner with
  | .clean j i =>
      (cleanSection clock j i s.memory 0).map fun (i, memory, _) =>
        { s with memory := memory }.setCleaner (.post j i)
  | _ => none

/-- The outer loop of `clean` goes on to the next section, or `clean` returns. -/
def nextSection (j : Fin numSections) (i : ℕ) : Cleaner :=
  if next : j + 1 < numSections then .wait ⟨j + 1, next⟩ i else .sleeping

def cleanerPost (s : Sections n) : Option (Sections n) :=
  match s.cleaner with
  | .post j i => some ((s.semPost j).setCleaner (nextSection j i))
  | _ => none

def step (s : Sections n) : Action n → Option (Sections n)
  | .query w query => s.query w query
  | .semDown w => s.semDown w
  | .call w clock => s.call w clock
  | .semUp w => s.semUp w
  | .send w => s.send w
  | .wake => s.cleanerWake
  | .semWait => s.cleanerWait
  | .clean clock => s.cleanerClean clock
  | .semPost => s.cleanerPost

end Sections

end SphereMultithreading.Model.P6
