import SphereMultithreading.Model.P3.ConfigParser
import SphereMultithreading.Model.P3.Connection

/-! # The proxy of p3

There is a listener for each port of the configuration. A connection that it accepts is given one of its
servers and goes on by itself. Whether accepting has failed is not looked at.
-/

namespace SphereMultithreading.Model.P3

/-- A connection that was accepted, with the port it came to and the server it was given. -/
structure Accepted where
  port : UInt16
  address : PairAddr
  connection : Connection

/-- A `ProxyPortListener` is its port and its servers. -/
structure Proxy where
  ports : List (UInt16 × List PairAddr)
  connections : List Accepted

namespace Proxy

/-- A listener takes a client, with a number that `rand` yields and whatever its new buffers hold; or
something happens at a connection. -/
inductive Action where
  | accept (i rand : ℕ) (buffer : Side → Buffer)
  | connection (i : ℕ) (a : Connection.Action)

/-- The constructor. -/
def init (config : ParserConfigFile) : Proxy where
  ports := config.ports.map fun port => (port, config.servers port)
  connections := []

/-- `handle_accept`, where nothing is said of what comes after undefined behaviour. -/
def accept (s : Proxy) (i rand : ℕ) (buffer : Side → Buffer) : Option Proxy :=
  match s.ports[i]? with
  | none => none
  | some (port, servers) =>
      (handleAccept servers rand).map fun address =>
        { s with connections := s.connections ++ [⟨port, address, (Connection.newInstance buffer).start⟩] }

def step (s : Proxy) : Action → Option Proxy
  | .accept i rand buffer => s.accept i rand buffer
  | .connection i a =>
      match s.connections[i]? with
      | none => none
      | some c =>
          (c.connection.step a).map fun connection =>
            { s with connections := s.connections.set i { c with connection := connection } }

end Proxy

end SphereMultithreading.Model.P3
