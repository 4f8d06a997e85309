import Arborist.Command.Run

/-!
# The program

Looks at the disk, hands what it has seen to the command, and prints the answer.  Of the disk, only
the places that the command can ask for are looked at.
-/

namespace Arborist.Command

def observeAt (volume : Volume) (names : List Name) : IO Volume := do
  if (volume.top.at? names).isSome then return volume
  try
    let path ← IO.FS.realPath (Path.display (Path.absolute names))
    if ← path.isDir then return volume.put names (.directory [])
    else if ← path.pathExists then return volume.put names (.file (← IO.FS.readBinFile path))
    else return volume
  catch _ => return volume

/-- The volume with what the disk has on the way along a path.  What a command asks for is observed
first, and `run` then decides on the volume alone. -/
def observe (volume : Volume) (path : Path) : IO Volume := do
  let mut volume := volume
  let mut place : List Name := []
  for segment in Path.segments (Path.join (Path.absolute volume.current) path) do
    if segment = Path.up then place := place.tail
    else if !Path.isIdle segment then
      place := segment :: place
      volume ← observeAt volume place.reverse
  return volume

/-- The volume with everything below a place.  Files come without their contents, which
`observeFile` reads when they are asked for. -/
partial def observeBelow (volume : Volume) (names : List Name) : IO Volume := do
  let directory ← IO.FS.realPath (Path.display (Path.absolute names))
  let mut volume := volume
  for entry in ← directory.readDir do
    let place := names ++ [(entry.fileName : Name)]
    let isNew := (volume.top.at? place).isNone
    if ← entry.path.isDir then
      volume ← observeBelow (if isNew then volume.put place (.directory []) else volume) place
    else if isNew then
      volume := volume.put place (.file .empty)
  return volume

def observeFile (volume : Volume) (path : Path) : IO Volume := do
  match volume.locate path with
  | .ok (names, .file _) =>
      return volume.put names (.file (← IO.FS.readBinFile (Path.display path)))
  | _ => return volume

def observeCheck (s : Session) (explicit : Option Path) (o : CheckOptions) : IO Session := do
  let scanRoot : Path := o.path.getD [Path.dot]
  let mut volume ← observe s.volume scanRoot
  let globalFile := s.globalDirectory.map (Path.join · Config.globalName)
  for path in explicit.toList ++ Config.projectCandidates volume scanRoot ++ globalFile.toList do
    volume ← observe volume path
  match (o.origin { s with volume } explicit).load volume with
  | .error _ => return { s with volume }
  | .ok config =>
    volume ← observe volume (o.path.getD config.runner.root)
    match o.runner { s with volume } config with
    | .error _ => return { s with volume }
    | .ok runner =>
      volume ← observeBelow volume ((Path.segments runner.root).filter fun segment =>
        !Path.isIdle segment)
      for file in runner.files volume do
        volume ← observeFile volume file
      return { s with volume }

def observeSession : IO Session := do
  let directory := (← IO.currentDir).toString
  let current := (Path.segments (directory : Path)).filter fun segment => !Path.isIdle segment
  let volume ← observe ⟨[], current⟩ [Path.dot]
  return ⟨volume, ← IO.getEnv "TREELINT_CONFIG_DIR", (← IO.getEnv "HOME").map Text.bytes⟩

def writeBack (volume : Volume) : IO Unit := do
  match volume.locate configName with
  | .ok (_, .file content) => IO.FS.writeBinFile configName content
  | _ => return

end Arborist.Command

open Arborist.Command in
def main (args : List String) : IO UInt32 := do
  let mut session ← observeSession
  match readArguments args with
  | .ok ⟨_, config, .check options⟩ => session ← observeCheck session config options
  | .ok ⟨_, _, .init _⟩ => session := { session with volume := ← observe session.volume configName }
  | _ => pure ()
  match run session args with
  | none =>
    IO.eprint helpText
    return usageExit.toUInt32
  | some response =>
    for line in response.log do
      IO.eprintln line.render
    if response.exit = 0 then
      if let .ok ⟨_, _, .init _⟩ := readArguments args then writeBack response.volume
    IO.print response.output
    if response.failure ≠ "" then IO.eprintln response.failure
    return response.exit.toUInt32
