import Waypoint.CompiledPath

/-!
# Sessions

A session holds a root and paths compiled under names. Its steps compile and copy paths, replace the
root, and read or update it through a path. A failed update leaves the root as it is.

The accesses that wait follow one another without a pause: for each of them the clock and the count
of callbacks begin anew, but it begins in the round in which the one before it ended, with what is
left of the round's allowance.
-/

namespace Waypoint

/-- The root, the compiled paths by name, and the number of waits that may still end in the present
round. -/
structure Session where
  root : Doc
  paths : List (String × CompiledPath)
  credit : Nat

/-- How a step of a session goes through a path. -/
structure Access where
  name : String
  transform : Transform
  totality : Totality
  /-- The waiting times, if the access waits. -/
  delays : Option (List Nat)

/-- A step of a session. -/
inductive SessionStep where
  | compile (name : String) (compiled : CompiledPath)
  | clone (name source : String)
  | reset (root : Doc)
  | read (access : Access)
  | update (access : Access)

/-- What a step of a session comes to. -/
inductive SessionResult where
  | compiled (path : Path)
  | cloned (path : Path)
  | reset
  | answer (result : Except PathError Doc)

/-- What is seen of a step: calls of an access that does not wait, or events of one that does. -/
inductive SessionCall where
  | immediate (call : PathCall)
  | deferred (event : CallEvent Doc)
  deriving DecidableEq, Inhabited

/-- What an access comes to, what is seen of it, and what it leaves of the allowance of the round in
which it ends. -/
structure AccessReport where
  result : Except PathError Doc
  log : List (Entry SessionCall)
  credit : Nat

/-- A step of a session with what it came to. -/
structure SessionReport where
  result : SessionResult
  log : List (Entry SessionCall)
  root : Doc

namespace Entry

/-- A line with its call changed. -/
def mapCall {κ μ : Type} (f : κ → μ) : Entry κ → Entry μ
  | call c => call (f c)
  | notice n => notice n

end Entry

namespace Session

def new (root : Doc) : Session :=
  ⟨root, [], World.allowance⟩

def path? (session : Session) (name : String) : Option CompiledPath :=
  session.paths.lookup name

/-- Stores a path under a name, in the place of an earlier one. -/
def store (name : String) (compiled : CompiledPath) (session : Session) : Session :=
  { session with paths := (name, compiled) :: session.paths }

def access? (session : Session) (access : Access) : Option AccessReport := do
  let compiled ← session.path? access.name
  let transform := access.totality.adapt access.transform.run
  match access.delays with
  | none =>
    let trace := compiled.access transform session.root
    some ⟨trace.result, trace.log.map (Entry.mapCall .immediate), session.credit⟩
  | some delays =>
    let world : World Doc := { World.fresh delays with credit := session.credit }
    let (result?, world) := (compiled.accessLater transform session.root).run world
    let result ← result?
    some ⟨result, world.log.map (Entry.mapCall .deferred), world.credit⟩

/-- Takes a step. A path is compiled twice, once for the accesses that wait and once for those that
do not. There is no answer where the step names a path that was never stored. -/
def step (session : Session) : SessionStep → Option (Session × SessionReport)
  | .compile name compiled =>
    some (session.store name compiled,
      ⟨.compiled compiled.path, [.notice compiled.notice, .notice compiled.notice], session.root⟩)
  | .clone name source =>
    (session.path? source).map fun compiled =>
      (session.store name compiled, ⟨.cloned compiled.path, [], session.root⟩)
  | .reset root => some ({ session with root }, ⟨.reset, [], root⟩)
  | .read access =>
    (session.access? access).map fun done =>
      ({ session with credit := done.credit }, ⟨.answer done.result, done.log, session.root⟩)
  | .update access =>
    (session.access? access).map fun done =>
      let root := match done.result with
        | .ok value => value
        | .error _ => session.root
      ({ session with root, credit := done.credit }, ⟨.answer done.result, done.log, root⟩)

def run (session : Session) : List SessionStep → Option (List SessionReport)
  | [] => some []
  | step :: rest => do
    let (session, report) ← session.step step
    let reports ← session.run rest
    pure (report :: reports)

end Session

end Waypoint
