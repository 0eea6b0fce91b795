import PeakOs.Blobstore.Failures
import PeakOs.Blobstore.Regions
import PeakOs.Blobstore.Space
import PeakOs.Boot.Verify
import PeakOs.Crypto.Poly1305
import PeakOs.Ctr.Http
import PeakOs.Gui.DomForest
import PeakOs.Gui.InflateSafety
import PeakOs.Heap.Requests
import PeakOs.Net.Dhcp
import PeakOs.Net.Identity
import PeakOs.Net.Inside
import PeakOs.Net.Stream
import PeakOs.PeakVec.Persist
import PeakOs.PeakVec.Ranking
import PeakOs.Peakdisk.Dirty
import PeakOs.Pmm.Completeness
import PeakOs.Random.Freshness
import PeakOs.Sched.Run
import PeakOs.Tls.Authentication
import PeakOs.Tls.KeyDerivation
import PeakOs.Tls.Records
import PeakOs.Tls.Tofu
import PeakOs.User.BaseCodes
import PeakOs.Vfs.Descriptors
import PeakOs.Vmm.Frames
import PeakOs.Vmm.Image
import PeakOs.Web.Http
import PeakOs.Webpki.Issuers
import PeakOs.X509.LeafKeys
