import Hlibc.BitmapRun
import Hlibc.Crypto.Des.Complement
import Hlibc.Crypto.Des.EcbBlocks
import Hlibc.Crypto.Des.WeakKeys
import Hlibc.Crypto.MdLost
import Hlibc.Crypto.MdResume
import Hlibc.Crypto.MdStream
import Hlibc.Crypto.MurmurReach
import Hlibc.Crypto.Sha1Calls
import Hlibc.Crypto.Sha1Standard
import Hlibc.Crypto.Siphash
import Hlibc.HeapCheck
import Hlibc.HeapSort
import Hlibc.Hlist
import Hlibc.Htest.Global
import Hlibc.Htest.Ledger
import Hlibc.Ipv4RoundTrip
import Hlibc.Ipv6Bytes
import Hlibc.KqueueRun
import Hlibc.ListSafe
import Hlibc.ListSwap
import Hlibc.Math
import Hlibc.RbtreeColor
import Hlibc.RbtreeCut
import Hlibc.RbtreeTraversal
import Hlibc.Reljmp
import Hlibc.SpinlockCount
import Hlibc.String.Base64Normal
import Hlibc.String.HexCode
import Hlibc.Uri.Agreement
import Hlibc.Uri.NormalHost
import Hlibc.Uri.PathSegments
import Hlibc.Uri.Prototype
import Hlibc.Uri.Rewrite
