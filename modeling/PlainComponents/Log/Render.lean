import PlainComponents.Log.Filter
import PlainComponents.Text.Document

/-!
# Log lines

An event as a line: a JSON object, or text for a reader.
-/

namespace PlainComponents

namespace Log

def Value.document : Value → Document
  | text s => .string s.toList
  | number n => .number n
  | flag b => .flag b

def Value.show : Value → String
  | text s => s
  | number n => toString n
  | flag b => toString b

namespace Event

/-- An event as a JSON object. -/
def document (e : Event) : Document :=
  .object
    [("level", .string e.level.name.toList),
     ("fields", .object
       (("message", .string e.message.toList) :: e.fields.map fun (k, v) => (k, v.document))),
     ("target", .string e.target.toList)]

/-- An event for a reader. -/
def sentence (e : Event) : String :=
  e.level.name ++ " " ++ e.target ++ ": " ++ e.message
    ++ String.join (e.fields.map fun (k, v) => " " ++ k ++ "=" ++ v.show)

/-- An event as a line of the log. -/
def line (format : Format) (e : Event) : String :=
  match format with
  | .json => String.ofList e.document.compact
  | .text => e.sentence

end Event

end Log

end PlainComponents
