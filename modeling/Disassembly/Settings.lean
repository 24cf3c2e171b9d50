import Disassembly.Archive
import Disassembly.Json.Form
import Disassembly.Json.Layout
import Disassembly.Json.Tree
import Disassembly.Program.Merge

/-! Settings, and their JSON form. Each field has a default, so a text need only name the
fields that it changes. -/
namespace Disassembly

inductive LogFormat where
  | pretty | json
deriving DecidableEq, Inhabited

namespace LogFormat

def all : List LogFormat := [.pretty, .json]

/-- The name in documents. -/
def name : LogFormat → String
  | pretty => "pretty"
  | json => "json"

end LogFormat

structure LogOptions where
  format : LogFormat := .pretty
  filter : String := "binlift=info"
deriving DecidableEq

structure Settings where
  archive : ArchiveOptions := {}
  policy : CollisionPolicy := .fail
  logging : LogOptions := {}
deriving DecidableEq

open Json

def ArchiveOptions.form : Form ArchiveOptions :=
  let default : ArchiveOptions := {}
  (Form.record ((Record.field "max_file_size" .word64 (some default.maxFileSize)).and
    ((Record.field "verify_checksum" .bool (some default.verifyChecksum)).and
    (.field "atomic_save" .bool (some default.atomicSave)))) true).as
    (fun (maxFileSize, verifyChecksum, atomicSave) => ⟨maxFileSize, verifyChecksum, atomicSave⟩)
    fun o => (o.maxFileSize, o.verifyChecksum, o.atomicSave)

/-- The form of the policy, which is a record of one field. -/
def CollisionPolicy.form : Form CollisionPolicy :=
  .record (.field "policy" (.enumeration all name) (some .fail)) true

def LogOptions.form : Form LogOptions :=
  let default : LogOptions := {}
  (Form.record ((Record.field "format" (.enumeration LogFormat.all LogFormat.name)
    (some default.format)).and (.field "filter" .text (some default.filter))) true).as
    (fun (format, filter) => ⟨format, filter⟩) fun o => (o.format, o.filter)

namespace Settings

def form : Form Settings :=
  (Form.record ((Record.field "codec" ArchiveOptions.form (some {})).and
    ((Record.field "merge" CollisionPolicy.form (some .fail)).and
    (.field "logging" LogOptions.form (some {})))) true).as
    (fun (archive, policy, logging) => ⟨archive, policy, logging⟩)
    fun s => (s.archive, s.policy, s.logging)

def decode (text : String) : Except Error Settings :=
  match (Json.parse? text.toList).bind form.read with
  | some s => .ok s
  | none => .error .invalidSettings

/-- The settings on one line. -/
def encode (s : Settings) : String := Json.text .compact (form.write s)

end Settings

end Disassembly
