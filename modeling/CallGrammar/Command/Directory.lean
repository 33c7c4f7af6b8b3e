import CallGrammar.Command.Run

namespace CallGrammar

structure Directory where
  files : List (String × ByteArray)

namespace Directory

def textOf (bytes : ByteArray) : Except ReadError String :=
  match String.fromUTF8? bytes with
  | some text => .ok text
  | none => .error .notText

def find? (d : Directory) (name : String) : Option ByteArray := (d.files.find? (·.1 = name)).map (·.2)

def follow (d : Directory) : List String → Except ReadError ByteArray
  | [] => .error .isDirectory
  | part :: parts =>
      if part = "" ∨ part = "." then d.follow parts
      else if part = ".." then .error (if parts.all (· ∈ ["", ".", ".."]) then .isDirectory else .notFound)
      else if part.utf8ByteSize > 255 then .error .nameTooLong
      else match d.find? part with
        | none => .error .notFound
        | some bytes => if parts.isEmpty then .ok bytes else .error .notDirectory

def read (d : Directory) (path : String) : Except ReadError String :=
  if path.utf8ByteSize > 4095 then .error .nameTooLong
  else if path.startsWith "/" then .error (if path.all (· = '/') then .isDirectory else .notFound)
  else (d.follow (path.splitOn "/")).bind textOf

def reader (d : Directory) (stdin : ByteArray) : Reader
  | .inline text => .ok text
  | .stdin => textOf stdin
  | .file path => d.read path

end Directory

end CallGrammar
