import SphereMultithreading.Machine.Run
import SphereMultithreading.Model.P6.Worker
import SphereMultithreading.Soundness.Grammar
import SphereMultithreading.Soundness.P6.Exclusion
import SphereMultithreading.Soundness.P6.MapRefinement

/-! # What a worker of p6 does for its clients

From the text of a command to the text of its answer: each chunk that spells a call, in whatever white
space, is answered to its client as the map answers the call.
-/

namespace SphereMultithreading.Soundness.P6

open Machine Model Model.HashTable Model.Scanf Model.Stdio Model.P6 Model.P6.HashTable Proofs.HashTable

/-- A line that a client sends in one chunk, and the call it means. -/
structure Request where
  fd : ℕ
  now : ℤ
  call : Call
  line : Text

/-- The query of a call; the fields that its command does not have are 0. -/
def query : Call → Query
  | .set key ttl value => ⟨key, value, ttl, .SET⟩
  | .get key => ⟨key, 0, 0, .GET⟩
  | .del key => ⟨key, 0, 0, .DEL⟩

/-- What is sent for a call that is answered so. -/
def answered (r : Request) (reply : Reply) : ℕ × Text := (r.fd, ((query r.call).answer reply).toList)

/-! ## Lines -/

variable {r : Request} {s : WorkerState} {map : Contents}

end SphereMultithreading.Soundness.P6
