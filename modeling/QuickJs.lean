import QuickJs.GcExact
import QuickJs.SetProperty
import QuickJs.MapRefine
import QuickJs.MapIterate
import QuickJs.PromiseAll
import QuickJs.StackSound
import QuickJs.ShapeOverflow
import QuickJs.NanBox
import QuickJs.Prototype
import QuickJs.DebuggerTunnel
import QuickJs.DebuggerMode
import QuickJs.ValueApi
import QuickJs.JsonRoundTrip
import QuickJs.AtomicsWait
import QuickJs.WorkerMessage
import QuickJs.EvaluateModule
import QuickJs.TypedArray
import QuickJs.Proxy
import QuickJs.RegistryFailure
import QuickJs.LinkRight
import QuickJs.DebuggerShutdown
import QuickJs.DebuggerRead
import QuickJs.TimerFires
import QuickJs.ArrayLength
import QuickJs.ArrayPush
import QuickJs.WeakRuns
import QuickJs.StorageRuns
import QuickJs.PersistentRuns
import QuickJs.CharClass
import QuickJs.ArraySearch
import QuickJs.ArrayDefine
import QuickJs.JumpRelaxation
import QuickJs.NormalizeEquivalence
import QuickJs.ArraySortStable
import QuickJs.LineTable
import QuickJs.StringRun
import QuickJs.DateClip
import QuickJs.ObjectMarks
import QuickJs.JsxBalance
import QuickJs.StorageRoundTrip
import QuickJs.ToInt32
import QuickJs.LineTunnel
import QuickJs.UnicodeScriptExact
import QuickJs.DebuggerParse
import QuickJs.UriRoundTrip
import QuickJs.ArgumentBounds
import QuickJs.GeneratorRun
import QuickJs.AwaitGivesBack
import QuickJs.RqsortStack
import QuickJs.DynBuf
import QuickJs.StringReplace
import QuickJs.BigIntAsUint
import QuickJs.RegExpSplit
import QuickJs.BinaryFormat
import QuickJs.TypedArraySet
import QuickJs.PropTable
import QuickJs.ForInLoop
