import SignedManifest.Cli.Run
/-!
Which part of a file system a command has to do with: the files that it reads and the directories in
which it makes something. All else may be left out of the file system that a command runs on.
-/
namespace SignedManifest

def Disk.placesTo (p : Place) : List Place := (List.range (p.length + 1)).map p.take

/-- The places that a path leads through, from the top down. Dots count as steps on the text alone. -/
def Disk.placesOn (d : Disk) (path : String) : List Place :=
  let descend (passed : List Place) (name : String) : List Place :=
    let here := passed.getLast?.getD []
    passed ++ [if name = "." then here else if name = ".." then here.dropLast else here ++ [name]]
  (stepsOf path).1.foldl descend (placesTo (d.start path))

namespace Cli

def SourceOptions.filesRead (settings : Settings) (o : SourceOptions) : List String :=
  o.snapshot :: (o.key.or settings.signingKeyPath).toList ++ settings.legacyRulesPath.toList

namespace Command

def filesRead (settings : Settings) : Command → List String
  | exportAll source .. => source.filesRead settings
  | certificates source .. => source.filesRead settings
  | verify key archive => [key, archive]
  | reconcile existing incoming => [existing, incoming]

def dirsFilled (settings : Settings) : Command → List String
  | exportAll source .. => settings.workDir :: source.out.toList
  | certificates source .. => settings.workDir :: source.out.toList
  | verify .. => []
  | reconcile .. => []

end Command

def areaNamesOf (random : List UInt8) : List String :=
  let alphabet := "ABCDEFGHIJKLMNOPQRSTUVWXYZabcdefghijklmnopqrstuvwxyz0123456789".toList
  (List.range (random.length / 6)).map fun i =>
    let bytes := (random.drop (6 * i)).take 6
    Exporter.areaStem ++ String.ofList (bytes.map fun b => alphabet.getD (b.toNat % 62) 'A')

end Cli

end SignedManifest
