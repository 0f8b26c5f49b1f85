import SmallLisp.Main
import SmallLisp.Proofs.TailCalls
import SmallLisp.Proofs.Decoding
import SmallLisp.Proofs.Newline
import SmallLisp.Proofs.Grammar
import SmallLisp.Proofs.RoundTrip
import SmallLisp.Proofs.Completion
import SmallLisp.Proofs.LineInput
import SmallLisp.Proofs.Expansion
import SmallLisp.Proofs.NamespaceSwitch
import SmallLisp.Proofs.Loading
import SmallLisp.Proofs.NativeErrors
import SmallLisp.Proofs.Effects
import SmallLisp.Proofs.Nesting
import SmallLisp.Proofs.Frames
import SmallLisp.Proofs.Directories
import SmallLisp.Proofs.ErrorForms
import SmallLisp.Proofs.Growth
import SmallLisp.Proofs.Endings
import SmallLisp.Proofs.PrintedData
import SmallLisp.Proofs.Templates
import SmallLisp.Proofs.InnerFunctions
import SmallLisp.Proofs.NamespaceStore
import SmallLisp.Proofs.Guarded
import SmallLisp.Proofs.GuardedForms
import SmallLisp.Proofs.NamespaceInvariant
import SmallLisp.Proofs.IntegerPower
import SmallLisp.Proofs.KeySlots
import SmallLisp.Proofs.FiniteMaps
import SmallLisp.Proofs.KeyOrder
import SmallLisp.Proofs.Equality
import SmallLisp.Proofs.FailedCalls
import SmallLisp.Proofs.AttachedMarks
import SmallLisp.Proofs.Calls
import SmallLisp.Proofs.ParameterLists
import SmallLisp.Proofs.FreshSymbols
import SmallLisp.Proofs.Layout
import SmallLisp.Proofs.ErrorPlaces
import SmallLisp.Proofs.Computing
import SmallLisp.Proofs.CoreLibrary
import SmallLisp.Proofs.FormRules
import SmallLisp.Proofs.CoreCode
import SmallLisp.Proofs.ControlMacros
import SmallLisp.Proofs.GuardedSessions
import SmallLisp.Proofs.HiddenFrames
import SmallLisp.Proofs.ListFunctions
import SmallLisp.Proofs.ListCalls
import SmallLisp.Proofs.IntegerArithmetic
import SmallLisp.Proofs.LookupChanges
import SmallLisp.Proofs.DefinedNames
import SmallLisp.Proofs.Libraries
