import Recase.Execute
import Recase.Name.Temporary
import Recase.Path.Route
import Recase.Scan

/-!
# Recovery

A run that stops between the two moves of a pair leaves an entry at its temporary name.

* `leftovers`: the entries below roots that carry a temporary name. The walk lists retained
  directories only, and passes over those that cannot be listed; a name counts if it is that of no
  directory, hidden or not, or if it is that of a directory and is retained. A link to a directory
  counts as one here.
* `recover`: the leftovers moved to their intended names, where these are free, from the bottom up.
-/

namespace Recase

/-- Whether a walk from a root takes an entry for a directory. -/
def isListedDirectory (d : Disk) (root : Path) (names : List String) : Node → Bool
  | .directory => true
  | .file _ => false
  | .link _ => d.leadsToDirectory (root.walkedRoute names)

/-- Whether an entry below a root carries a temporary name and is found. -/
def isLeftover (d : Disk) (ignored : List String) (root : Path) (names : List String)
    (node : Node) : Bool :=
  match names.getLast? with
  | none => false
  | some name =>
    isRetained ignored names.dropLast && root.canList names.dropLast && Name.isTemporary name
      && !(isListedDirectory d root names node && Name.isSkipped ignored name)

/-- Whether an entry comes before another where every directory is listed by name before the
directories in it. -/
def listingLe (a b : List String) : Bool :=
  if a.dropLast = b.dropLast then namesLe a b else namesLe a.dropLast b.dropLast

/-- The entries below a root that carry a temporary name. -/
def leftoversBelow (d : Disk) (ignored : List String) (root : Path) : List Path :=
  match d.directoryAt? root with
  | none => []
  | some top =>
    let found := (d.tree.below top).filter fun (names, node) =>
      isLeftover d ignored root names node
    (sortBy listingLe (found.map (·.1))).map root.below

/-- The entries below roots that carry a temporary name. -/
def leftovers (d : Disk) (ignored : List String) (roots : List Root) :
    Except Failure (List Path) := do
  .ok ((← outermostRoots d roots).flatMap (leftoversBelow d ignored))

/-- The path that a leftover is meant to have. -/
def intendedPath (temporary : Path) : Except Failure Path :=
  let name := (Name.temporaryTarget? temporary.name).getD ""
  match temporary.withName? name with
  | some path => .ok path
  | none => .error (.invalidName name)

/-- A leftover moved to its intended path, unless that is taken. -/
def recoverOne (d : Disk) (temporary : Path) : Except Failure (Option Path × Disk) := do
  let intended ← intendedPath temporary
  if d.hasEntry intended.route then .ok (none, d)
  else
    match d.rename temporary.route intended.route with
    | .ok moved => .ok (some intended, moved)
    | .error .embeddedNul => .error .embeddedNul
    | .error (.refused errno) =>
      .error (.system errno temporary.toString (some intended.toString))

/-- Leftovers moved one after the other. The pairs moved are given only if none fails; the disk
keeps what was done. -/
def recoverFrom (d : Disk) : List Path → Except Failure (List (Path × Path)) × Disk
  | [] => (.ok [], d)
  | temporary :: rest =>
    match recoverOne d temporary with
    | .error failure => (.error failure, d)
    | .ok (intended?, d) =>
      let (after, d) := recoverFrom d rest
      (after.map fun pairs => (intended?.map (temporary, ·)).toList ++ pairs, d)

/-- The leftovers below roots moved to their intended names, from the bottom up. -/
def recover (d : Disk) (ignored : List String) (roots : List Root) :
    Except Failure (List (Path × Path)) × Disk :=
  match leftovers d ignored roots with
  | .error failure => (.error failure, d)
  | .ok found => recoverFrom d (sortBy (fun a b => decide (b.size ≤ a.size)) found)

end Recase
