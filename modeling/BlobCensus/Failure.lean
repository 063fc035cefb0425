import BlobCensus.Path

/-!
# Failures

What can stop a run as a whole. Trouble with a single file never does: it counts as an empty
answer there.
-/
namespace BlobCensus

inductive IoCause where
  | notFound
  | notDirectory
  | isDirectory
  | tooManyLinks
  | nameTooLong
  | zeroByte
  | notUtf8
  | refused (reason : String)
  deriving DecidableEq, Repr

namespace IoCause

def message : IoCause → String
  | notFound => "No such file or directory (os error 2)"
  | notDirectory => "Not a directory (os error 20)"
  | isDirectory => "Is a directory (os error 21)"
  | tooManyLinks => "Too many levels of symbolic links (os error 40)"
  | nameTooLong => "File name too long (os error 36)"
  | zeroByte => "file name contained an unexpected NUL byte"
  | notUtf8 => "stream did not contain valid UTF-8"
  | refused reason => reason

end IoCause

inductive Failure where
  | unreadable (path : Path) (cause : IoCause)
  | badSettings (path : Path)
  | rootNotDirectory (path : Path)
  | seedNotFound (path : Path)
  /-- A document of the report could not be written. -/
  | document (cause : IoCause)
  /-- Another part of the report could not be written. -/
  | write (cause : IoCause)
  deriving DecidableEq, Repr

namespace Failure

def message : Failure → String
  | unreadable path cause => s!"failed to read {path.display}: {cause.message}"
  | badSettings path => s!"invalid config file {path.display}: TOML parse error"
  | rootNotDirectory path => s!"root is not a directory: {path.display}"
  | seedNotFound path => s!"seed file not found: {path.display}"
  | document cause | write cause => s!"failed to write report: {cause.message}"

def causes : Failure → List String
  | unreadable _ cause => [cause.message]
  | _ => []

end Failure

end BlobCensus
