import ChartLight.Fault

/-! Why a file of settings or marks is refused. -/

namespace ChartLight

open Number

/-- Why a file cannot be read. -/
inductive ReadFault where
  | notFound
  | isDirectory
  | notADirectory
  | nameTooLong
  | nulInName
  | notUtf8
  | other (text : String)
  deriving DecidableEq

def ReadFault.message : ReadFault → String
  | .notFound => "No such file or directory (os error 2)"
  | .isDirectory => "Is a directory (os error 21)"
  | .notADirectory => "Not a directory (os error 20)"
  | .nameTooLong => "File name too long (os error 36)"
  | .nulInName => "file name contained an unexpected NUL byte"
  | .notUtf8 => "stream did not contain valid UTF-8"
  | .other text => text

inductive LoadFault where
  | unreadable (path : String) (fault : ReadFault)
  /-- The text is no document of the expected shape. -/
  | malformed
  | timeScale (value : Binary64)
  | defaultPeriod (value : Binary64)
  /-- A mark whose characteristic cannot be read. -/
  | entry (name : String) (fault : Fault)
  deriving DecidableEq

def LoadFault.message : LoadFault → String
  | .unreadable path fault => "Cannot read '" ++ path ++ "': " ++ fault.message
  | .malformed => "Invalid configuration: not a document of the expected shape"
  | .timeScale value =>
    "Invalid configuration: time-scale must be greater than zero, got " ++ value.toText
  | .defaultPeriod value =>
    "Invalid configuration: default-period-seconds must be in (0, 3600], got " ++ value.toText
  | .entry name fault => "Catalog entry '" ++ name ++ "': " ++ fault.message

end ChartLight
