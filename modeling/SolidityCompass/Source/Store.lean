import SolidityCompass.Source.Error
import SolidityCompass.Source.FileMap

/-!
# Source stores

Where sources are read from: files held in memory, files on a disk, or open buffers laid over
another store. A buffer hides the file of the same path until it is dropped. A disk is given by its
files, and its directories are those that have files in them; it answers as the memory does, save
that its errors are its own and that only a directory can be listed.
-/

namespace SolidityCompass

inductive Store where
  | memory (files : FileMap)
  | disk (files : FileMap)
  | overlay (buffers : FileMap) (base : Store)
deriving Repr, Inhabited

namespace Store

/-- The disk before a file is written to it. -/
def vacantDisk : Store :=
  disk .empty

def read : Store → Path → Except ProjectError String
  | memory files, path =>
    match files.get? path with
    | some text => .ok text
    | none => .error (.unreadable path .notHeld)
  | disk files, path =>
    match files.get? path with
    | some text => .ok text
    | none => .error (.unreadable path .notOnDisk)
  | overlay buffers base, path =>
    match buffers.get? path with
    | some text => .ok text
    | none => base.read path

def isFile : Store → Path → Bool
  | memory files, path | disk files, path => files.contains path
  | overlay buffers base, path => buffers.contains path || base.isFile path

def isDirectory : Store → Path → Bool
  | memory files, path | disk files, path => files.hasDirectory path
  | overlay buffers base, path => base.isDirectory path || buffers.hasDirectory path

def dropRepeats : List Path → List Path
  | p :: q :: rest => if p.same q then dropRepeats (p :: rest) else p :: dropRepeats (q :: rest)
  | paths => paths

/-- The source files under a directory in the order of their components, each path once. -/
def list : Store → Path → Except ProjectError (List Path)
  | memory files, directory => .ok ((files.sourcesUnder directory).mergeSort Path.le)
  | disk files, directory =>
    if files.hasDirectory directory then .ok ((files.sourcesUnder directory).mergeSort Path.le)
    else .error (.missingRoot directory)
  | overlay buffers base, directory =>
    let found := (base.list directory).toOption.getD []
    .ok (dropRepeats ((found ++ buffers.sourcesUnder directory).mergeSort Path.le))

def paths : Store → List Path
  | memory files | disk files => files.paths
  | overlay buffers base => buffers.paths ++ base.paths

end Store

end SolidityCompass
